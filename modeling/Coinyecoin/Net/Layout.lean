import Coinyecoin.Foundation.Slots
import Coinyecoin.Net.CompactBlocks

/-!
# Where the transactions of a compact block go

A compact block says the positions of its prefilled transactions one relative to
the other; the short ids belong to the positions in between. The slots that
`InitData` leaves free are these positions, and its map sends each short id to its
own as long as positions fit in 16 bits and the search for a free slot, whose
offset is a 16-bit number too, finds one.
-/

namespace Coinyecoin

open Foundation ReadStatus List CBlockHeaderAndShortTxIDs

variable {l : List PrefilledTransaction} {c q : ℕ} {free : List ℕ} {offset : UInt16} {m : ShortIds}
  {id : UInt64} {done ids : List UInt64}

/-- The positions of prefilled transactions, the first of which counts from `next`. -/
def placesFrom : ℕ → List PrefilledTransaction → List ℕ
  | _, [] => []
  | next, prefilled :: rest =>
    (next + prefilled.index.toNat) :: placesFrom (next + prefilled.index.toNat + 1) rest

/-- The prefilled transactions, from number `i`, are transactions at positions that 16 bits can
hold, and before each there are enough short ids for the positions left out. -/
def WellPlaced (nShort : ℕ) : ℕ → ℕ → List PrefilledTransaction → Prop
  | _, _, [] => True
  | i, next, prefilled :: rest => prefilled.tx.isNull = false ∧
      next + prefilled.index.toNat ≤ 65535 ∧ next + prefilled.index.toNat ≤ nShort + i ∧
      WellPlaced nShort (i + 1) (next + prefilled.index.toNat + 1) rest

namespace CBlockHeaderAndShortTxIDs

variable (cmpctblock : CBlockHeaderAndShortTxIDs)

def prefilledPlaces : List ℕ := placesFrom 0 cmpctblock.prefilledtxn

def shortPlaces : List ℕ :=
  (List.range cmpctblock.blockTxCount).filter (· ∉ cmpctblock.prefilledPlaces)

def WellPrefilled : Prop := WellPlaced cmpctblock.shorttxids.length 0 0 cmpctblock.prefilledtxn

def Crowded (env : RelayEnv) : Prop :=
  ∃ done id rest, cmpctblock.shorttxids = done ++ id :: rest ∧
    env.bucketSize cmpctblock.shorttxids.length (done ++ [id]) id > 12

end CBlockHeaderAndShortTxIDs

section

variable {nShort : ℕ}

theorem le_of_mem_placesFrom {next n : ℕ} (hn : n ∈ placesFrom next l) : next ≤ n := by
  induction l generalizing next with
  | nil => exact absurd hn not_mem_nil
  | cons prefilled rest ih =>
    rcases mem_cons.1 hn with rfl | hn
    · exact Nat.le_add_right next _
    · have hle := ih hn
      omega

theorem length_placesFrom (next : ℕ) {l : List PrefilledTransaction} :
    (placesFrom next l).length = l.length := by
  induction l generalizing next with
  | nil => rfl
  | cons prefilled rest ih => rw [placesFrom, length_cons, length_cons, ih]

theorem nodup_placesFrom (next : ℕ) {l : List PrefilledTransaction} :
    (placesFrom next l).Nodup := by
  induction l generalizing next with
  | nil => exact nodup_nil
  | cons prefilled rest ih =>
    refine nodup_cons.2 ⟨fun hmem => ?_, ih _⟩
    have hle := le_of_mem_placesFrom hmem
    omega

theorem WellPlaced.bounds {i next n : ℕ}
    (h : WellPlaced nShort i next l) (hn : n ∈ placesFrom next l) :
    n ≤ 65535 ∧ n < nShort + i + l.length := by
  induction l generalizing i next with
  | nil => exact absurd hn not_mem_nil
  | cons prefilled rest ih =>
    obtain ⟨-, hfits, hgap, hrest⟩ := h
    rw [length_cons]
    rcases mem_cons.1 hn with rfl | hn
    · exact ⟨hfits, by omega⟩
    · obtain ⟨hle, hlt⟩ := ih hrest hn
      exact ⟨hle, by omega⟩

end

namespace PartiallyDownloadedBlock

section

variable {nShort : ℕ} {i next : ℕ} {txn_available : List CTransactionRef}

theorem last_add (next n : ℕ) : (next : ℤ) - 1 + (n + 1 : ℕ) = (next + n + 1 : ℕ) - 1 := by omega

theorem toNat_last (n : ℕ) : ((n + 1 : ℕ) - 1 : ℤ).toNat = n := by omega

theorem prefill_ok
    (h : WellPlaced nShort i next l) (hlen : nShort + i + l.length ≤ txn_available.length) :
    ∃ filled, prefill nShort i (next - 1) l txn_available = .ok (READ_STATUS_OK, filled) ∧
      filled.length = txn_available.length ∧
      (∀ n ∈ placesFrom next l, ∃ tx, filled[n]? = some (some tx)) ∧
      ∀ n, n ∉ placesFrom next l → filled[n]? = txn_available[n]? := by
  induction l generalizing i next txn_available with
  | nil => exact ⟨txn_available, rfl, rfl, fun _ hn => absurd hn not_mem_nil, fun _ _ => rfl⟩
  | cons prefilled rest ih =>
    obtain ⟨hnull, hfits, hgap, hrest⟩ := h
    rw [length_cons] at hlen
    let place := next + prefilled.index.toNat
    have hlast : _ = ((place + 1 : ℕ) - 1 : ℤ) := last_add next prefilled.index.toNat
    have hplace := toNat_last place
    have hlt : place < txn_available.length := by omega
    have hlen' : nShort + (i + 1) + rest.length ≤
        (txn_available.set place (some prefilled.tx)).length := by
      rw [length_set]
      omega
    obtain ⟨filled, hprefill, hlength, hfilled, hother⟩ := ih hrest hlen'
    refine ⟨filled, ?_, by rw [hlength, length_set], fun n hn => ?_, fun n hn => ?_⟩
    · rw [prefill, if_neg (by rw [hnull]; decide)]
      simp only [hlast, hplace]
      rw [if_neg (by omega), if_neg (by omega), vectorSet_of_lt hlt, ok_bind]
      exact hprefill
    · rcases mem_cons.1 hn with rfl | hn
      · have hnot : place ∉ placesFrom (place + 1) rest := fun hmem => by
          have hle := le_of_mem_placesFrom hmem
          omega
        exact ⟨prefilled.tx, by rw [hother place hnot, getElem?_set_self hlt]⟩
      · exact hfilled n hn
    · obtain ⟨hne, hnot⟩ := not_or.1 (mem_cons.not.1 hn)
      rw [hother n hnot, getElem?_set_ne (Ne.symm hne)]

theorem prefill_invalid (h : ¬ WellPlaced nShort i next l)
    (hlen : nShort + i + l.length ≤ txn_available.length) :
    ∃ filled, prefill nShort i (next - 1) l txn_available = .ok (READ_STATUS_INVALID, filled) := by
  induction l generalizing i next txn_available with
  | nil => exact absurd trivial h
  | cons prefilled rest ih =>
    rw [length_cons] at hlen
    let place := next + prefilled.index.toNat
    have hlast : _ = ((place + 1 : ℕ) - 1 : ℤ) := last_add next prefilled.index.toNat
    have hplace := toNat_last place
    rw [prefill]
    simp only [hlast, hplace]
    by_cases hnull : prefilled.tx.isNull = true
    · exact ⟨txn_available, if_pos hnull⟩
    rw [if_neg hnull]
    by_cases hfits : place ≤ 65535
    · rw [if_neg (by omega)]
      by_cases hgap : place ≤ nShort + i
      · have hlt : place < txn_available.length := by omega
        rw [if_neg (by omega), vectorSet_of_lt hlt, ok_bind]
        refine ih (fun hrest => h ⟨Bool.eq_false_iff.2 hnull, hfits, hgap, hrest⟩) ?_
        rw [length_set]
        omega
      · exact ⟨txn_available, if_pos (by omega)⟩
    · exact ⟨txn_available, if_pos (by omega)⟩

end

section

variable {txn_available : List CTransactionRef} {i : ℕ}

theorem nextFree_ok {rest : List CTransactionRef}
    {fuel : ℕ} (hrest : txn_available.drop c = rest) (hc : i + offset.toNat = c)
    (hfree : freeFrom c rest = q :: free)
    (hcount : offset.toNat + rest.countP Option.isSome < 65536) (hfuel : rest.length ≤ fuel) :
    ∃ offset' : UInt16, nextFree txn_available i fuel offset = .ok offset' ∧
      i + offset'.toNat = q ∧ freeFrom (q + 1) (txn_available.drop (q + 1)) = free ∧
      offset'.toNat + (txn_available.drop (q + 1)).countP Option.isSome < 65536 := by
  induction rest generalizing c offset fuel with
  | nil => exact nomatch hfree
  | cons slot rest ih =>
    rw [length_cons] at hfuel
    obtain ⟨fuel, rfl⟩ : ∃ k, fuel = k + 1 := ⟨fuel - 1, by omega⟩
    have hdrop : txn_available.drop (c + 1) = rest := by
      rw [← drop_drop, hrest, drop_one, tail_cons]
    have hslot : orStop (vectorAt txn_available c) = .ok slot := by
      rw [vectorAt_eq_ok.2]
      · rfl
      · rw [← head?_drop, hrest, head?_cons]
    rw [nextFree, hc, hslot, ok_bind]
    cases slot with
    | none =>
      rw [freeFrom] at hfree
      obtain ⟨rfl, rfl⟩ := List.cons.inj hfree
      rw [countP_cons_of_neg (by simp)] at hcount
      exact ⟨offset, rfl, hc, by rw [hdrop], by rw [hdrop]; exact hcount⟩
    | some tx =>
      rw [countP_cons_of_pos (by simp)] at hcount
      have hoffset : (offset + 1).toNat = offset.toNat + 1 := by
        rw [UInt16.toNat_add]
        exact Nat.mod_eq_of_lt (by change offset.toNat + 1 < 65536; omega)
      rw [if_pos Option.isSome_some]
      exact ih hdrop (by rw [hoffset]; omega) hfree (by rw [hoffset]; omega) (by omega)

theorem nextFree_hangs (hfull : ∀ n < 65536, ∃ tx, txn_available[n]? = some (some tx))
    (fuel : ℕ) (offset : UInt16) : nextFree txn_available 0 fuel offset = .error .outOfFuel := by
  induction fuel generalizing offset with
  | zero => rfl
  | succ fuel ih =>
    obtain ⟨tx, htx⟩ := hfull offset.toNat offset.toNat_lt
    rw [nextFree, Nat.zero_add, vectorAt_eq_ok.2 htx]
    exact ih (offset + 1)

end

section

def insertIds (shorttxids : ShortIds) (l : List (UInt64 × ℕ)) : ShortIds :=
  l.foldl (fun m entry => m.insert entry.1 (UInt16.ofNat entry.2)) shorttxids

theorem keys_insertIds (m : ShortIds) (l : List (UInt64 × ℕ)) :
    (insertIds m l).keys = m.keys ∪ (l.map Prod.fst).toFinset := by
  induction l generalizing m with
  | nil => simp [insertIds]
  | cons entry l ih =>
    have hinsert : (m.insert entry.1 (UInt16.ofNat entry.2)).keys = insert entry.1 m.keys := by
      ext k
      simp [Finmap.mem_keys]
    rw [show insertIds m (entry :: l) = insertIds (m.insert entry.1 _) l from rfl, ih, hinsert]
    ext k
    simp

theorem lookup_insertIds_of_notMem {l : List (UInt64 × ℕ)}
    (hid : id ∉ l.map Prod.fst) : (insertIds m l).lookup id = m.lookup id := by
  induction l generalizing m with
  | nil => rfl
  | cons entry l ih =>
    obtain ⟨hne, hrest⟩ := not_or.1 (mem_cons.not.1 hid)
    exact (ih hrest).trans (Finmap.lookup_insert_of_ne m hne)

theorem lookup_insertIds_of_mem {l : List (UInt64 × ℕ)} {n : ℕ}
    (hnodup : (l.map Prod.fst).Nodup) (hid : (id, n) ∈ l) :
    (insertIds m l).lookup id = some (UInt16.ofNat n) := by
  induction l generalizing m with
  | nil => exact absurd hid not_mem_nil
  | cons entry l ih =>
    obtain ⟨hnot, hnodup⟩ := nodup_cons.1 hnodup
    rcases mem_cons.1 hid with rfl | hid
    · exact (lookup_insertIds_of_notMem hnot).trans (Finmap.lookup_insert m)
    · exact ih hnodup hid

variable {env : RelayEnv} {fuel nBuckets : ℕ} {txn_available : List CTransactionRef}

/-- Where the loop over the short ids is: the next slot is `c`, from which on the slots in `free`
are free, and the offset is not going to pass 16 bits. -/
structure AtSlot (txn_available : List CTransactionRef) (done : List UInt64) (offset : UInt16)
    (c : ℕ) (free : List ℕ) : Prop where
  place : done.length + offset.toNat = c
  slots : freeFrom c (txn_available.drop c) = free
  count : free ≠ [] → offset.toNat + (txn_available.drop c).countP Option.isSome < 65536

theorem assignIds_cons (h : AtSlot txn_available done offset c (q :: free))
    (hfuel : txn_available.length ≤ fuel) :
    ∃ offset', AtSlot txn_available (done ++ [id]) offset' (q + 1) free ∧
      assignIds env fuel nBuckets txn_available done offset m (id :: ids) =
        if env.bucketSize nBuckets (done ++ [id]) id > 12 then
          .ok (READ_STATUS_FAILED, m.insert id (UInt16.ofNat q))
        else assignIds env fuel nBuckets txn_available (done ++ [id]) offset'
          (m.insert id (UInt16.ofNat q)) ids := by
  have hshort : (txn_available.drop c).length ≤ fuel := by
    rw [length_drop]
    omega
  obtain ⟨offset', hnext, hq, hfree, hcount⟩ :=
    nextFree_ok rfl h.place h.slots (h.count (cons_ne_nil q free)) hshort
  refine ⟨offset', ⟨?_, hfree, fun _ => hcount⟩, ?_⟩
  · rw [length_append, length_singleton, ← hq]
    omega
  · rw [assignIds, hnext, ok_bind, hq]

section

variable (h : AtSlot txn_available done offset c free) (hlen : free.length = ids.length)
  (hfuel : txn_available.length ≤ fuel)
include h hlen hfuel

theorem assignIds_failed (hcrowd : ∃ done' id rest, ids = done' ++ id :: rest ∧
      env.bucketSize nBuckets (done ++ done' ++ [id]) id > 12) :
    ∃ m', assignIds env fuel nBuckets txn_available done offset m ids =
      .ok (READ_STATUS_FAILED, m') := by
  induction ids generalizing done offset m c free with
  | nil =>
    obtain ⟨done', id, rest, hids, -⟩ := hcrowd
    exact absurd hids.symm (append_ne_nil_of_right_ne_nil _ (cons_ne_nil id rest))
  | cons id ids ih =>
    obtain ⟨q, free, rfl⟩ := exists_cons_of_length_eq_add_one hlen
    obtain ⟨offset', hnext, hround⟩ := assignIds_cons h hfuel
    rw [hround]
    by_cases hfull : env.bucketSize nBuckets (done ++ [id]) id > 12
    · exact ⟨_, if_pos hfull⟩
    · rw [if_neg hfull]
      refine ih hnext (Nat.succ_injective hlen) ?_
      obtain ⟨done', id', rest, hids, hsize⟩ := hcrowd
      cases done' with
      | nil =>
        obtain ⟨rfl, -⟩ := List.cons.inj hids
        exact absurd (by simpa using hsize) hfull
      | cons first done' =>
        obtain ⟨rfl, hrest⟩ := List.cons.inj hids
        exact ⟨done', id', rest, hrest, by simpa using hsize⟩

theorem assignIds_ok (hroom : ∀ done' id rest, ids = done' ++ id :: rest →
      env.bucketSize nBuckets (done ++ done' ++ [id]) id ≤ 12) :
    assignIds env fuel nBuckets txn_available done offset m ids =
      .ok (READ_STATUS_OK, insertIds m (ids.zip free)) := by
  induction ids generalizing done offset m c free with
  | nil =>
    rw [zip_nil_left]
    rfl
  | cons id ids ih =>
    obtain ⟨q, free, rfl⟩ := exists_cons_of_length_eq_add_one hlen
    obtain ⟨offset', hnext, hround⟩ := assignIds_cons h hfuel
    have hfirst := hroom [] id ids rfl
    rw [append_nil] at hfirst
    rw [hround, if_neg (by omega), ih hnext (Nat.succ_injective hlen)]
    · rfl
    · intro done' id' rest hids
      have hsize := hroom (id :: done') id' rest (by rw [hids, cons_append])
      simpa using hsize

end

end

section

variable {env : RelayEnv} {fuel : ℕ} {cmpctblock : CBlockHeaderAndShortTxIDs}

structure Prefilled (cmpctblock : CBlockHeaderAndShortTxIDs) (txn_available : List CTransactionRef) :
    Prop where
  length : txn_available.length = cmpctblock.blockTxCount
  filled : ∀ n ∈ cmpctblock.prefilledPlaces, ∃ tx, txn_available[n]? = some (some tx)
  free : ∀ n < cmpctblock.blockTxCount, n ∉ cmpctblock.prefilledPlaces →
    txn_available[n]? = some none

theorem le_length_slots : cmpctblock.shorttxids.length + 0 + cmpctblock.prefilledtxn.length ≤
    (List.replicate cmpctblock.blockTxCount (none : CTransactionRef)).length := by
  rw [length_replicate]
  exact le_rfl

theorem prefill_prefilled (h : cmpctblock.WellPrefilled) :
    ∃ txn_available, prefill cmpctblock.shorttxids.length 0 (-1) cmpctblock.prefilledtxn
        (List.replicate cmpctblock.blockTxCount none) = .ok (READ_STATUS_OK, txn_available) ∧
      Prefilled cmpctblock txn_available := by
  obtain ⟨filled, hprefill, hlength, hfilled, hother⟩ := prefill_ok h le_length_slots
  refine ⟨filled, hprefill, by rw [hlength, length_replicate], hfilled, fun n hn hfree => ?_⟩
  rw [hother n hfree, getElem?_replicate_of_lt hn]

namespace Prefilled

variable {txn_available : List CTransactionRef}

theorem freeFrom_eq (h : Prefilled cmpctblock txn_available) :
    freeFrom 0 txn_available = cmpctblock.shortPlaces := by
  rw [shortPlaces, range_eq_range', ← h.length]
  refine freeFrom_eq_filter fun n slot hslot => ?_
  rw [Nat.zero_add]
  by_cases hn : n ∈ cmpctblock.prefilledPlaces
  · obtain ⟨tx, htx⟩ := h.filled n hn
    rw [htx] at hslot
    cases hslot
    simp [hn]
  · have hlt : n < cmpctblock.blockTxCount := by
      rw [← h.length]
      exact (List.getElem?_eq_some_iff.1 hslot).1
    rw [h.free n hlt hn] at hslot
    cases hslot
    simp [hn]

end Prefilled

theorem nodup_prefilledPlaces : cmpctblock.prefilledPlaces.Nodup :=
  nodup_placesFrom 0

theorem length_prefilledPlaces :
    cmpctblock.prefilledPlaces.length = cmpctblock.prefilledtxn.length :=
  length_placesFrom 0

theorem nodup_shortPlaces : cmpctblock.shortPlaces.Nodup := nodup_range.filter _

theorem length_shortPlaces (h : cmpctblock.WellPrefilled) :
    cmpctblock.shortPlaces.length = cmpctblock.shorttxids.length := by
  have hsub : cmpctblock.prefilledPlaces.toFinset ⊆ Finset.range cmpctblock.blockTxCount := by
    intro n hn
    have hlt := (h.bounds (mem_toFinset.1 hn)).2
    exact Finset.mem_range.2 (by rw [blockTxCount]; omega)
  have hfinset : cmpctblock.shortPlaces.toFinset =
      Finset.range cmpctblock.blockTxCount \ cmpctblock.prefilledPlaces.toFinset := by
    ext n
    simp [shortPlaces]
  have hcard := Finset.card_sdiff_of_subset hsub
  rw [← hfinset, toFinset_card_of_nodup nodup_shortPlaces, Finset.card_range,
    toFinset_card_of_nodup nodup_prefilledPlaces, length_prefilledPlaces] at hcard
  rw [hcard, blockTxCount, Nat.add_sub_cancel]

theorem Prefilled.atSlot {txn_available : List CTransactionRef}
    (h : Prefilled cmpctblock txn_available) (hwell : cmpctblock.WellPrefilled)
    (hfew : cmpctblock.prefilledtxn.length < 65536 ∨ cmpctblock.shorttxids = []) :
    AtSlot txn_available [] 0 0 cmpctblock.shortPlaces where
  place := rfl
  slots := h.freeFrom_eq
  count hne := by
    have hlen := length_shortPlaces hwell
    have hcount := length_freeFrom 0 txn_available
    rw [h.freeFrom_eq, hlen, h.length, blockTxCount] at hcount
    have hids : cmpctblock.shorttxids ≠ [] := by
      rintro hids
      rw [hids] at hlen
      exact hne (eq_nil_of_length_eq_zero hlen)
    have hlt := hfew.resolve_right hids
    change 0 + txn_available.countP Option.isSome < 65536
    omega

theorem Prefilled.full {txn_available : List CTransactionRef}
    (h : Prefilled cmpctblock txn_available) (hwell : cmpctblock.WellPrefilled)
    (hmany : 65536 ≤ cmpctblock.prefilledtxn.length) :
    ∀ n < 65536, ∃ tx, txn_available[n]? = some (some tx) := by
  have hsub : cmpctblock.prefilledPlaces.toFinset ⊆ Finset.range 65536 := by
    intro n hn
    have hle := (hwell.bounds (mem_toFinset.1 hn)).1
    exact Finset.mem_range.2 (by omega)
  have hcard : (Finset.range 65536).card ≤ cmpctblock.prefilledPlaces.toFinset.card := by
    rw [Finset.card_range, toFinset_card_of_nodup nodup_prefilledPlaces, length_prefilledPlaces]
    exact hmany
  intro n hn
  refine h.filled n (mem_toFinset.1 ?_)
  rw [Finset.eq_of_subset_of_card_le hsub hcard]
  exact Finset.mem_range.2 hn

variable {txn_available : List CTransactionRef}

theorem map_fst_zip_shortPlaces (h : cmpctblock.WellPrefilled) :
    (cmpctblock.shorttxids.zip cmpctblock.shortPlaces).map Prod.fst = cmpctblock.shorttxids :=
  map_fst_zip (length_shortPlaces h).ge

section

variable (h : Prefilled cmpctblock txn_available) (hwell : cmpctblock.WellPrefilled)
include h hwell

theorem mapIds_of_room (hfew : cmpctblock.prefilledtxn.length < 65536 ∨ cmpctblock.shorttxids = [])
    (hroom : ¬ cmpctblock.Crowded env) (hfuel : cmpctblock.blockTxCount ≤ fuel) :
    mapIds env fuel txn_available cmpctblock.shorttxids =
      .ok (if cmpctblock.shorttxids.Nodup then READ_STATUS_OK else READ_STATUS_FAILED,
        insertIds ∅ (cmpctblock.shorttxids.zip cmpctblock.shortPlaces)) := by
  rw [← h.length] at hfuel
  have hassign := @assignIds_ok _ _ _ ∅ _ _ env fuel cmpctblock.shorttxids.length _
    (h.atSlot hwell hfew) (length_shortPlaces hwell) hfuel fun done id rest hids =>
      Nat.le_of_not_lt fun hsize => hroom ⟨done, id, rest, hids, hsize⟩
  have hkeys : (insertIds ∅ (cmpctblock.shorttxids.zip cmpctblock.shortPlaces)).keys =
      cmpctblock.shorttxids.toFinset := by
    rw [keys_insertIds, map_fst_zip_shortPlaces hwell, Finmap.keys_empty, Finset.empty_union]
  rw [mapIds, hassign, ok_bind]
  simp only [hkeys, ne_eq, not_true_eq_false, if_false]
  by_cases hnodup : cmpctblock.shorttxids.Nodup
  · rw [if_neg (not_not.2 (toFinset_card_of_nodup hnodup)), if_pos hnodup]
  · rw [if_pos, if_neg hnodup]
    exact fun hcard => hnodup (Multiset.toFinset_card_eq_card_iff_nodup.1 hcard)

theorem mapIds_of_crowded (hfew : cmpctblock.prefilledtxn.length < 65536)
    (hcrowd : cmpctblock.Crowded env) (hfuel : cmpctblock.blockTxCount ≤ fuel) :
    ∃ m, mapIds env fuel txn_available cmpctblock.shorttxids = .ok (READ_STATUS_FAILED, m) := by
  rw [← h.length] at hfuel
  obtain ⟨m, hassign⟩ := @assignIds_failed _ _ _ ∅ _ _ env fuel cmpctblock.shorttxids.length _
    (h.atSlot hwell (.inl hfew)) (length_shortPlaces hwell) hfuel hcrowd
  refine ⟨m, ?_⟩
  rw [mapIds, hassign]
  rfl

theorem mapIds_hangs
    (hmany : 65536 ≤ cmpctblock.prefilledtxn.length) (hids : cmpctblock.shorttxids ≠ []) :
    mapIds env fuel txn_available cmpctblock.shorttxids = .error .outOfFuel := by
  obtain ⟨id, ids, hcons⟩ := exists_cons_of_ne_nil hids
  rw [mapIds, hcons, assignIds, length_nil, nextFree_hangs (h.full hwell hmany)]
  rfl

end

variable (p : PartiallyDownloadedBlock)

theorem layOut_invalid (h : ¬ cmpctblock.WellPrefilled) :
    ∃ p', ∀ fuel, layOut env fuel p cmpctblock = .ok (READ_STATUS_INVALID, p', ∅) := by
  obtain ⟨filled, hprefill⟩ := prefill_invalid h le_length_slots
  refine ⟨{ p with header := cmpctblock.header, txn_available := filled }, fun fuel => ?_⟩
  rw [layOut, show prefill _ 0 (-1) _ _ = _ from hprefill]
  rfl

theorem layOut_prefilled (h : cmpctblock.WellPrefilled) :
    ∃ txn_available, Prefilled cmpctblock txn_available ∧
      ∀ fuel, layOut env fuel p cmpctblock =
        (mapIds env fuel txn_available cmpctblock.shorttxids >>= fun result =>
          .ok (result.1, { p with
            header := cmpctblock.header
            txn_available := txn_available
            prefilled_count := UInt64.ofNat cmpctblock.prefilledtxn.length }, result.2)) := by
  obtain ⟨txn_available, hprefill, hprefilled⟩ := prefill_prefilled h
  refine ⟨txn_available, hprefilled, fun fuel => ?_⟩
  rw [layOut, hprefill]
  rfl

end

end PartiallyDownloadedBlock

end Coinyecoin
