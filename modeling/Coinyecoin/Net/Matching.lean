import Coinyecoin.Foundation.Slots
import Coinyecoin.Net.CompactBlocks

/-!
# Which transactions a compact block is matched with

What the two scans of `InitData` leave in the slot of a short id, in terms of the
transactions with that id: the only one of the pool, or the first extra one, as long
as no extra one has another witness hash. A slot that was emptied stays empty. The
scans end early when there is a transaction for every short id.
-/

namespace Coinyecoin

open Foundation List

variable {e' : UInt64 × ℕ}

section

def matching (getShortID : uint256 → UInt64) (l : List (uint256 × CTransaction)) (id : UInt64) :
    List CTransaction :=
  (l.filter fun entry => getShortID entry.1 == id).map Prod.snd

def unlessOther (env : RelayEnv) (tx : CTransaction) (others : List CTransaction) :
    CTransactionRef :=
  if others.all fun other => env.getWitnessHash other == env.getWitnessHash tx then some tx
  else none

/-- What is found for a short id that these transactions of the pool and these extra transactions
have. -/
def heldOf (env : RelayEnv) : List CTransaction → List CTransaction → CTransactionRef
  | [], [] => none
  | [], tx :: extra => unlessOther env tx extra
  | [tx], extra => unlessOther env tx extra
  | _ :: _ :: _, _ => none

def held (env : RelayEnv) (getShortID : uint256 → UInt64)
    (pool extra : List (uint256 × CTransaction)) (id : UInt64) : CTransactionRef :=
  heldOf env (matching getShortID pool id) (matching getShortID extra id)

def tried (getShortID : uint256 → UInt64) (pool extra : List (uint256 × CTransaction))
    (id : UInt64) : Bool :=
  !(matching getShortID pool id).isEmpty || !(matching getShortID extra id).isEmpty

/-- The part of a list that a scan looks at if it ends as soon as `full` holds. -/
def scanUntil {α : Type} (full : List α → Bool) : List α → List α → List α
  | done, [] => done
  | done, a :: rest =>
    if full (done ++ [a]) then done ++ [a] else scanUntil full (done ++ [a]) rest

variable {env : RelayEnv} {getShortID : uint256 → UInt64}

variable {l : List (uint256 × CTransaction)} {hash : uint256} {tx : CTransaction} {id : UInt64}

theorem matching_append_self (h : getShortID hash = id) :
    matching getShortID (l ++ [(hash, tx)]) id = matching getShortID l id ++ [tx] := by
  simp [matching, h]

theorem matching_append_of_ne (h : getShortID hash ≠ id) :
    matching getShortID (l ++ [(hash, tx)]) id = matching getShortID l id := by
  simp [matching, h]

theorem heldOf_append_pool (pool : List CTransaction) (tx : CTransaction) :
    heldOf env (pool ++ [tx]) [] = if pool = [] then some tx else none := by
  cases pool with
  | nil => rfl
  | cons first pool =>
    cases pool with
    | nil => rfl
    | cons second pool => rfl

theorem unlessOther_append (tx other : CTransaction) {others : List CTransaction} :
    unlessOther env tx (others ++ [other]) = (unlessOther env tx others).filter fun found =>
      env.getWitnessHash other == env.getWitnessHash found := by
  rw [unlessOther, unlessOther, all_append, all_cons, all_nil, Bool.and_true]
  cases others.all fun other => env.getWitnessHash other == env.getWitnessHash tx with
  | false => simp
  | true => simp [Option.filter_some]

theorem heldOf_append_extra (pool extra : List CTransaction) (tx : CTransaction) :
    heldOf env pool (extra ++ [tx]) =
      if pool = [] ∧ extra = [] then some tx
      else (heldOf env pool extra).filter fun found =>
        env.getWitnessHash tx == env.getWitnessHash found := by
  cases pool with
  | nil =>
    cases extra with
    | nil => rfl
    | cons first extra =>
      rw [if_neg (by simp)]
      exact unlessOther_append first tx
  | cons first pool =>
    rw [if_neg (by simp)]
    cases pool with
    | nil => exact unlessOther_append first tx
    | cons second pool => rfl

theorem held_of_tried_eq_false {pool extra : List (uint256 × CTransaction)}
    (h : tried getShortID pool extra id = false) : held env getShortID pool extra id = none := by
  simp only [tried, Bool.or_eq_false_iff, Bool.not_eq_false', List.isEmpty_iff] at h
  rw [held, h.1, h.2]
  rfl

end

namespace PartiallyDownloadedBlock

namespace Scan

structure Addresses (shorttxids : ShortIds) (slots : List (UInt64 × ℕ)) : Prop where
  ids : (slots.map Prod.fst).Nodup
  places : (slots.map Prod.snd).Nodup
  found : ∀ e ∈ slots, ∃ n, shorttxids.lookup e.1 = some n ∧ n.toNat = e.2
  other : ∀ id ∉ slots.map Prod.fst, shorttxids.lookup id = none
  size : shorttxids.keys.card = slots.length
  small : slots.length < 2 ^ 63

structure Scanned (env : RelayEnv) (getShortID : uint256 → UInt64) (slots : List (UInt64 × ℕ))
    (pool extra : List (uint256 × CTransaction)) (s : Scan) : Prop where
  available : ∀ e ∈ slots, s.txn_available[e.2]? = some (held env getShortID pool extra e.1)
  have_txn : ∀ e ∈ slots, s.have_txn[e.2]? = some (tried getShortID pool extra e.1)
  count : s.mempool_count.toNat =
    slots.countP fun e => (held env getShortID pool extra e.1).isSome

def complete (env : RelayEnv) (getShortID : uint256 → UInt64) (ids : List UInt64)
    (pool extra : List (uint256 × CTransaction)) : Bool :=
  ids.all fun id => (held env getShortID pool extra id).isSome

section

variable {env : RelayEnv} {getShortID : uint256 → UInt64} {shorttxids : ShortIds}
  {slots : List (UInt64 × ℕ)} {pool extra pool' extra' : List (uint256 × CTransaction)}
  {s s' : Scan} {e : UInt64 × ℕ}

theorem Addresses.ne (haddr : Addresses shorttxids slots) (he : e ∈ slots)
    (he' : e' ∈ slots) (hne : e' ≠ e) : e'.1 ≠ e.1 ∧ e'.2 ≠ e.2 :=
  ⟨fun heq => hne (inj_on_of_nodup_map haddr.ids he' he heq),
    fun heq => hne (inj_on_of_nodup_map haddr.places he' he heq)⟩

theorem Scanned.keep (h : Scanned env getShortID slots pool extra s)
    (hsame : ∀ e ∈ slots,
      held env getShortID pool' extra' e.1 = held env getShortID pool extra e.1 ∧
        tried getShortID pool' extra' e.1 = tried getShortID pool extra e.1) :
    Scanned env getShortID slots pool' extra' s where
  available e he := by rw [(hsame e he).1, h.available e he]
  have_txn e he := by rw [(hsame e he).2, h.have_txn e he]
  count := by
    rw [h.count]
    refine countP_congr fun e he => ?_
    rw [(hsame e he).1]

theorem Scanned.place (haddr : Addresses shorttxids slots)
    (h : Scanned env getShortID slots pool extra s) (he : e ∈ slots) (ref : CTransactionRef) :
    ∃ s', s.place e.2 ref = .ok s' ∧ s'.txn_available = s.txn_available.set e.2 ref ∧
      s'.have_txn = s.have_txn.set e.2 true ∧
      s'.mempool_count.toNat = s.mempool_count.toNat + 1 := by
  have havailable := (List.getElem?_eq_some_iff.1 (h.available e he)).1
  have hhave := (List.getElem?_eq_some_iff.1 (h.have_txn e he)).1
  refine ⟨{ s with
    txn_available := s.txn_available.set e.2 ref
    have_txn := s.have_txn.set e.2 true
    mempool_count := s.mempool_count + 1 }, ?_, rfl, rfl, ?_⟩
  · rw [Scan.place, vectorSet_of_lt havailable, ok_bind, vectorSet_of_lt hhave, ok_bind]
  · have hle : s.mempool_count.toNat ≤ slots.length := by
      rw [h.count]
      exact countP_le_length
    have hsmall := haddr.small
    rw [UInt64.toNat_add]
    exact Nat.mod_eq_of_lt (by change s.mempool_count.toNat + 1 < 2 ^ 64; omega)

section

variable (h : Scanned env getShortID slots pool extra s) (he : e ∈ slots)
include h he

theorem Scanned.reset (hsome : (held env getShortID pool extra e.1).isSome = true) :
    ∃ s', s.reset e.2 = .ok s' ∧ s'.txn_available = s.txn_available.set e.2 none ∧
      s'.have_txn = s.have_txn ∧ s'.mempool_count.toNat + 1 = s.mempool_count.toNat := by
  have havailable := (List.getElem?_eq_some_iff.1 (h.available e he)).1
  refine ⟨{ s with
    txn_available := s.txn_available.set e.2 none
    mempool_count := s.mempool_count - 1 }, ?_, rfl, rfl, ?_⟩
  · rw [Scan.reset, vectorSet_of_lt havailable, ok_bind]
  · have hpos : 1 ≤ s.mempool_count.toNat := by
      rw [h.count]
      exact countP_pos_iff.2 ⟨e, he, hsome⟩
    have hle : (1 : UInt64) ≤ s.mempool_count := by
      rw [UInt64.le_iff_toNat_le]
      exact hpos
    change (s.mempool_count - 1).toNat + 1 = _
    rw [UInt64.toNat_sub_of_le _ _ hle]
    exact Nat.sub_add_cancel hpos

theorem set_tried (htried : tried getShortID pool extra e.1 = true) :
    s.have_txn = s.have_txn.set e.2 true := by
  obtain ⟨hlt, hget⟩ := List.getElem?_eq_some_iff.1 (h.have_txn e he)
  rw [htried] at hget
  rw [← hget, set_getElem_self]

end

section

variable (haddr : Addresses shorttxids slots) (h : Scanned env getShortID slots pool extra s)
  (he : e ∈ slots)
  (hother : ∀ id, id ≠ e.1 → matching getShortID pool' id = matching getShortID pool id ∧
    matching getShortID extra' id = matching getShortID extra id)
include haddr h he hother

variable (env) in
omit h in
theorem slots_unchanged (he' : e' ∈ slots) (hne : e' ≠ e) :
    held env getShortID pool' extra' e'.1 = held env getShortID pool extra e'.1 ∧
      tried getShortID pool' extra' e'.1 = tried getShortID pool extra e'.1 := by
  obtain ⟨hpool, hextra⟩ := hother e'.1 (haddr.ne he he' hne).1
  simp only [held, tried, hpool, hextra, and_self]

theorem Scanned.change (havailable : s'.txn_available =
      s.txn_available.set e.2 (held env getShortID pool' extra' e.1))
    (hhave : s'.have_txn = s.have_txn.set e.2 (tried getShortID pool' extra' e.1))
    (hcount : s'.mempool_count.toNat + (held env getShortID pool extra e.1).isSome.toNat =
      s.mempool_count.toNat + (held env getShortID pool' extra' e.1).isSome.toNat) :
    Scanned env getShortID slots pool' extra' s' := by
  refine ⟨fun e' he' => ?_, fun e' he' => ?_, ?_⟩
  · by_cases hne : e' = e
    · rw [hne, havailable, List.getElem?_set_self]
      exact (List.getElem?_eq_some_iff.1 (h.available e he)).1
    · rw [havailable, getElem?_set_ne (haddr.ne he he' hne).2.symm, h.available e' he',
        (slots_unchanged env haddr he hother he' hne).1]
  · by_cases hne : e' = e
    · rw [hne, hhave, List.getElem?_set_self]
      exact (List.getElem?_eq_some_iff.1 (h.have_txn e he)).1
    · rw [hhave, getElem?_set_ne (haddr.ne he he' hne).2.symm, h.have_txn e' he',
        (slots_unchanged env haddr he hother he' hne).2]
  · have hchange := countP_change
      (p := fun e' : UInt64 × ℕ => (held env getShortID pool extra e'.1).isSome)
      (q := fun e' => (held env getShortID pool' extra' e'.1).isSome)
      (List.Nodup.of_map Prod.fst haddr.ids) he
      fun e' he' hne => by rw [(slots_unchanged env haddr he hother he' hne).1]
    have hbefore := h.count
    omega

theorem Scanned.keepAt
    (hheld : held env getShortID pool' extra' e.1 = held env getShortID pool extra e.1)
    (htried : tried getShortID pool' extra' e.1 = tried getShortID pool extra e.1) :
    Scanned env getShortID slots pool' extra' s := by
  refine h.keep fun e' he' => ?_
  by_cases hne : e' = e
  · rw [hne]
    exact ⟨hheld, htried⟩
  · exact slots_unchanged env haddr he hother he' hne

theorem Scanned.first {tx : CTransaction} (hfirst : tried getShortID pool extra e.1 = false)
    (hheld : held env getShortID pool' extra' e.1 = some tx)
    (htried : tried getShortID pool' extra' e.1 = true) :
    ∃ s', s.place e.2 (some tx) = .ok s' ∧ Scanned env getShortID slots pool' extra' s' := by
  obtain ⟨s', hplace, havailable, hhave, hcount⟩ := h.place haddr he (some tx)
  refine ⟨s', hplace, h.change haddr he hother ?_ ?_ ?_⟩
  · rw [hheld, havailable]
  · rw [htried, hhave]
  · rw [hheld, held_of_tried_eq_false hfirst, hcount]
    rfl

theorem Scanned.emptied {tx : CTransaction} (hslot : held env getShortID pool extra e.1 = some tx)
    (hbefore : tried getShortID pool extra e.1 = true)
    (hheld : held env getShortID pool' extra' e.1 = none)
    (htried : tried getShortID pool' extra' e.1 = true) :
    ∃ s', s.reset e.2 = .ok s' ∧ Scanned env getShortID slots pool' extra' s' := by
  obtain ⟨s', hreset, havailable, hhave, hcount⟩ := h.reset he (by rw [hslot]; rfl)
  refine ⟨s', hreset, h.change haddr he hother ?_ ?_ ?_⟩
  · rw [hheld, havailable]
  · rw [htried, hhave]
    exact set_tried h he hbefore
  · rw [hheld, hslot]
    exact hcount

end

theorem Scanned.visitPool (haddr : Addresses shorttxids slots)
    (h : Scanned env getShortID slots pool [] s) (he : e ∈ slots) {hash : uint256}
    (hid : getShortID hash = e.1) (tx : CTransaction) :
    ∃ s', s.visitPool e.2 tx = .ok s' ∧
      Scanned env getShortID slots (pool ++ [(hash, tx)]) [] s' := by
  have hother : ∀ id, id ≠ e.1 →
      matching getShortID (pool ++ [(hash, tx)]) id = matching getShortID pool id ∧
        matching getShortID [] id = matching getShortID [] id := fun id hne =>
    ⟨matching_append_of_ne (hid ▸ hne.symm), rfl⟩
  have hmatching := @matching_append_self getShortID pool hash tx e.1 hid
  have htried : tried getShortID (pool ++ [(hash, tx)]) [] e.1 = true := by
    simp [tried, hmatching]
  have hheld : held env getShortID (pool ++ [(hash, tx)]) [] e.1 =
      if matching getShortID pool e.1 = [] then some tx else none := by
    rw [held, hmatching]
    exact heldOf_append_pool _ tx
  rw [Scan.visitPool, vectorAt_eq_ok.2 (h.have_txn e he), ok_bind]
  by_cases hempty : matching getShortID pool e.1 = []
  · have hfirst : tried getShortID pool [] e.1 = false := by
      simp only [tried, hempty]
      rfl
    rw [if_pos hempty] at hheld
    obtain ⟨s', hplace, hs'⟩ := h.first haddr he hother hfirst hheld htried
    exact ⟨s', by simpa [hfirst] using hplace, hs'⟩
  · have hbefore : tried getShortID pool [] e.1 = true := by simp [tried, hempty]
    rw [if_neg hempty] at hheld
    rw [hbefore, Bool.not_true, if_neg Bool.false_ne_true, vectorAt_eq_ok.2 (h.available e he),
      ok_bind]
    cases hslot : held env getShortID pool [] e.1 with
    | none =>
      exact ⟨s, rfl, h.keepAt haddr he hother (hheld.trans hslot.symm)
        (htried.trans hbefore.symm)⟩
    | some found =>
      exact h.emptied haddr he hother hslot hbefore hheld htried

theorem Scanned.visitExtra (haddr : Addresses shorttxids slots)
    (h : Scanned env getShortID slots pool extra s) (he : e ∈ slots) {hash : uint256}
    (hid : getShortID hash = e.1) (tx : CTransaction) :
    ∃ s', s.visitExtra env e.2 (some tx) = .ok s' ∧
      Scanned env getShortID slots pool (extra ++ [(hash, tx)]) s' := by
  have hother : ∀ id, id ≠ e.1 → matching getShortID pool id = matching getShortID pool id ∧
      matching getShortID (extra ++ [(hash, tx)]) id = matching getShortID extra id :=
    fun id hne => ⟨rfl, matching_append_of_ne (hid ▸ hne.symm)⟩
  have hmatching := @matching_append_self getShortID extra hash tx e.1 hid
  have htried : tried getShortID pool (extra ++ [(hash, tx)]) e.1 = true := by
    simp [tried, hmatching]
  have hheld : held env getShortID pool (extra ++ [(hash, tx)]) e.1 =
      if matching getShortID pool e.1 = [] ∧ matching getShortID extra e.1 = [] then some tx
      else (held env getShortID pool extra e.1).filter fun found =>
        env.getWitnessHash tx == env.getWitnessHash found := by
    rw [held, hmatching]
    exact heldOf_append_extra _ _ tx
  rw [Scan.visitExtra, vectorAt_eq_ok.2 (h.have_txn e he), ok_bind]
  by_cases hempty : matching getShortID pool e.1 = [] ∧ matching getShortID extra e.1 = []
  · have hfirst : tried getShortID pool extra e.1 = false := by
      simp only [tried, hempty.1, hempty.2]
      rfl
    rw [if_pos hempty] at hheld
    obtain ⟨s', hplace, hs'⟩ := h.first haddr he hother hfirst hheld htried
    exact ⟨{ s' with extra_count := s'.extra_count + 1 }, by simp [hfirst, hplace],
      ⟨hs'.available, hs'.have_txn, hs'.count⟩⟩
  · have hbefore : tried getShortID pool extra e.1 = true := by
      rw [not_and_or] at hempty
      simpa [tried] using hempty
    rw [if_neg hempty] at hheld
    rw [hbefore, Bool.not_true, if_neg Bool.false_ne_true, vectorAt_eq_ok.2 (h.available e he),
      ok_bind]
    cases hslot : held env getShortID pool extra e.1 with
    | none =>
      rw [hslot, Option.filter_none] at hheld
      exact ⟨s, rfl, h.keepAt haddr he hother (hheld.trans hslot.symm)
        (htried.trans hbefore.symm)⟩
    | some found =>
      rw [hslot, Option.filter_some] at hheld
      by_cases hwitness : env.getWitnessHash found = env.getWitnessHash tx
      · rw [if_pos (beq_iff_eq.2 hwitness.symm)] at hheld
        exact ⟨s, if_neg (not_not.2 hwitness), h.keepAt haddr he hother (hheld.trans hslot.symm)
          (htried.trans hbefore.symm)⟩
      · rw [if_neg (by simpa using Ne.symm hwitness)] at hheld
        obtain ⟨s', hreset, hs'⟩ := h.emptied haddr he hother hslot hbefore hheld htried
        refine ⟨{ s' with extra_count := s'.extra_count - 1 }, ?_,
          ⟨hs'.available, hs'.have_txn, hs'.count⟩⟩
        simp only [ne_eq, hwitness, not_false_eq_true, if_true, hreset, ok_bind]

theorem Scanned.skip (h : Scanned env getShortID slots pool extra s)
    (hother : ∀ id ∈ slots.map Prod.fst,
      matching getShortID pool' id = matching getShortID pool id ∧
        matching getShortID extra' id = matching getShortID extra id) :
    Scanned env getShortID slots pool' extra' s := by
  refine h.keep fun e he => ?_
  obtain ⟨hpool, hextra⟩ := hother e.1 (mem_map_of_mem he)
  simp only [held, tried, hpool, hextra, and_self]

theorem Scanned.complete_iff (haddr : Addresses shorttxids slots)
    (h : Scanned env getShortID slots pool extra s) :
    (s.mempool_count == UInt64.ofNat shorttxids.keys.card) =
      complete env getShortID (slots.map Prod.fst) pool extra := by
  have hsmall := haddr.small
  have hcard : (UInt64.ofNat shorttxids.keys.card).toNat = slots.length := by
    rw [haddr.size, UInt64.toNat_ofNat']
    exact Nat.mod_eq_of_lt (by omega)
  rw [Bool.eq_iff_iff, beq_iff_eq, ← UInt64.toNat_inj, hcard, h.count, countP_eq_length,
    complete, all_map, all_eq_true]
  rfl

end

section

variable {env : RelayEnv} {getShortID : uint256 → UInt64} {shorttxids : ShortIds}
  {slots : List (UInt64 × ℕ)}

section

variable (haddr : Addresses shorttxids slots)
include haddr

theorem scan_cons {β : Type} {visit : Scan → ℕ → β → Except Fault Scan} {s : Scan}
    {pool extra pool' extra' : List (uint256 × CTransaction)} {hash : uint256} {b : β}
    (h : Scanned env getShortID slots pool extra s)
    (hother : ∀ id, getShortID hash ≠ id →
      matching getShortID pool' id = matching getShortID pool id ∧
        matching getShortID extra' id = matching getShortID extra id)
    (hvisit : ∀ e ∈ slots, getShortID hash = e.1 → ∃ s', visit s e.2 b = .ok s' ∧
      Scanned env getShortID slots pool' extra' s') :
    ∃ s', Scanned env getShortID slots pool' extra' s' ∧ ∀ rest,
      s.scan shorttxids getShortID visit ((hash, b) :: rest) =
        if complete env getShortID (slots.map Prod.fst) pool' extra' then .ok s'
        else s'.scan shorttxids getShortID visit rest := by
  by_cases hmem : getShortID hash ∈ slots.map Prod.fst
  · obtain ⟨e, he, hid⟩ := mem_map.1 hmem
    obtain ⟨n, hlookup, hn⟩ := haddr.found e he
    obtain ⟨s', hs', hscanned⟩ := hvisit e he hid.symm
    refine ⟨s', hscanned, fun rest => ?_⟩
    rw [scan, ← hid, hlookup, ← hscanned.complete_iff haddr]
    simp only [hn, hs', ok_bind]
  · have hscanned : Scanned env getShortID slots pool' extra' s :=
      h.skip fun id hid => hother id fun heq => hmem (by rw [heq]; exact hid)
    refine ⟨s, hscanned, fun rest => ?_⟩
    rw [scan, haddr.other _ hmem, ← hscanned.complete_iff haddr]
    rfl

theorem scan_pool {pool rest : List (uint256 × CTransaction)}
    {s : Scan} (h : Scanned env getShortID slots pool [] s) :
    ∃ s', s.scan shorttxids getShortID Scan.visitPool rest = .ok s' ∧
      Scanned env getShortID slots
        (scanUntil (complete env getShortID (slots.map Prod.fst) · []) pool rest) [] s' := by
  induction rest generalizing pool s with
  | nil => exact ⟨s, rfl, h⟩
  | cons entry rest ih =>
    obtain ⟨hash, tx⟩ := entry
    obtain ⟨s', hscanned, hround⟩ := @scan_cons env getShortID shorttxids slots haddr _ Scan.visitPool
      s pool [] (pool ++ [(hash, tx)]) [] hash tx h
      (fun id hne => ⟨matching_append_of_ne hne, rfl⟩)
      (fun e he hid => h.visitPool haddr he hid tx)
    rw [hround, scanUntil]
    split_ifs with hfull
    · exact ⟨s', rfl, hscanned⟩
    · exact ih hscanned

theorem scan_extra {pool extra filled : List (uint256 × CTransaction)} {s : Scan}
    (h : Scanned env getShortID slots pool extra s) :
    (∃ k ≤ filled.length, 1 ≤ k ∧
      complete env getShortID (slots.map Prod.fst) pool (extra ++ filled.take k) = true ∧
      ∃ s', ∀ rest, s.scan shorttxids getShortID (Scan.visitExtra env)
        (filled.map (fun entry => (entry.1, some entry.2)) ++ rest) = .ok s') ∨
    (∀ k ≤ filled.length, 1 ≤ k →
      complete env getShortID (slots.map Prod.fst) pool (extra ++ filled.take k) = false) ∧
      ∃ s', Scanned env getShortID slots pool (extra ++ filled) s' ∧
        ∀ rest, s.scan shorttxids getShortID (Scan.visitExtra env)
          (filled.map (fun entry => (entry.1, some entry.2)) ++ rest) =
            s'.scan shorttxids getShortID (Scan.visitExtra env) rest := by
  induction filled generalizing extra s with
  | nil =>
    refine .inr ⟨fun k hk hone => ?_, s, by rw [append_nil]; exact h, fun rest => rfl⟩
    rw [length_nil] at hk
    omega
  | cons entry filled ih =>
    obtain ⟨hash, tx⟩ := entry
    obtain ⟨s', hscanned, hround⟩ := @scan_cons env getShortID shorttxids slots haddr _
      (Scan.visitExtra env) s pool extra pool (extra ++ [(hash, tx)]) hash (some tx) h
      (fun id hne => ⟨rfl, matching_append_of_ne hne⟩)
      (fun e he hid => h.visitExtra haddr he hid tx)
    have htake : ∀ k, extra ++ [(hash, tx)] ++ filled.take k =
        extra ++ ((hash, tx) :: filled).take (k + 1) := fun k => by
      rw [take_succ_cons, append_assoc, singleton_append]
    by_cases hfull : complete env getShortID (slots.map Prod.fst) pool
        (extra ++ [(hash, tx)]) = true
    · refine .inl ⟨1, by simp, le_rfl, hfull, s', fun rest => ?_⟩
      rw [map_cons, cons_append, hround, if_pos hfull]
    · rcases ih hscanned with ⟨k, hk, hone, hcomplete, s'', hs''⟩ | ⟨hnot, s'', hlast, hs''⟩
      · refine .inl ⟨k + 1, by rw [length_cons]; omega, by omega, ?_, s'', fun rest => ?_⟩
        · rw [← htake]
          exact hcomplete
        · rw [map_cons, cons_append, hround, if_neg hfull]
          exact hs'' rest
      · refine .inr ⟨fun k hk hone => ?_, s'', ?_, fun rest => ?_⟩
        · obtain ⟨k, rfl⟩ : ∃ j, k = j + 1 := ⟨k - 1, by omega⟩
          rw [← htake]
          by_cases hzero : k = 0
          · rw [hzero, take_zero, append_nil]
            exact Bool.eq_false_iff.2 hfull
          · exact hnot k (by rw [length_cons] at hk; omega) (by omega)
        · rw [append_assoc] at hlast
          exact hlast
        · rw [map_cons, cons_append, hround, if_neg hfull]
          exact hs'' rest

theorem scan_unfilled_of_empty {s : Scan} {e : UInt64 × ℕ}
    (he : e ∈ slots) (hid : getShortID 0 = e.1) (havailable : s.txn_available[e.2]? = some none)
    (hhave : s.have_txn[e.2]? = some true) {n : ℕ} :
    s.scan shorttxids getShortID (Scan.visitExtra env) (List.replicate n (0, none)) = .ok s := by
  obtain ⟨pos, hlookup, hpos⟩ := haddr.found e he
  induction n with
  | zero => rfl
  | succ n ih =>
    rw [replicate_succ, scan, hid, hlookup]
    simp only [hpos, visitExtra, vectorAt_eq_ok.2 hhave, vectorAt_eq_ok.2 havailable, ok_bind,
      Bool.not_true, if_neg Bool.false_ne_true]
    split_ifs
    · rfl
    · exact ih

theorem scan_unfilled {pool extra : List (uint256 × CTransaction)} {s : Scan}
    (h : Scanned env getShortID slots pool extra s) (n : ℕ) :
    (∃ s', s.scan shorttxids getShortID (Scan.visitExtra env)
      (List.replicate (n + 1) (0, none)) = .ok s') ↔
    ¬ (getShortID 0 ∈ slots.map Prod.fst ∧
      (held env getShortID pool extra (getShortID 0)).isSome = true) := by
  by_cases hmem : getShortID 0 ∈ slots.map Prod.fst
  · obtain ⟨e, he, hid⟩ := mem_map.1 hmem
    obtain ⟨pos, hlookup, hpos⟩ := haddr.found e he
    have hhave := h.have_txn e he
    have havailable := h.available e he
    rw [hid] at hhave havailable
    cases htried : tried getShortID pool extra (getShortID 0) with
    | false =>
      have hnone := @held_of_tried_eq_false env _ _ _ _ htried
      refine iff_of_true ?_ fun hheld => by rw [hnone] at hheld; exact nomatch hheld.2
      obtain ⟨s₁, hplace, hset, hhave₁, -⟩ := h.place haddr he none
      let s₂ : Scan := { s₁ with extra_count := s₁.extra_count + 1 }
      have hempty : s₂.txn_available[e.2]? = some none := by
        rw [hset, List.getElem?_set_self (List.getElem?_eq_some_iff.1 havailable).1]
      have htrue : s₂.have_txn[e.2]? = some true := by
        rw [hhave₁, List.getElem?_set_self (List.getElem?_eq_some_iff.1 hhave).1]
      refine ⟨s₂, ?_⟩
      rw [htried] at hhave
      rw [replicate_succ, scan, ← hid, hlookup]
      simp only [hpos, Scan.visitExtra, vectorAt_eq_ok.2 hhave, hplace, ok_bind, Bool.not_false,
        if_true]
      split_ifs
      · rfl
      · exact scan_unfilled_of_empty haddr he hid.symm hempty htrue
    | true =>
      rw [htried] at hhave
      cases hheld : held env getShortID pool extra (getShortID 0) with
      | none =>
        rw [hheld] at havailable
        exact iff_of_true
          ⟨s, scan_unfilled_of_empty haddr he hid.symm havailable hhave⟩ fun h => nomatch h
      | some found =>
        refine iff_of_false (fun ⟨s', hs'⟩ => ?_) fun hnot => hnot ⟨hmem, rfl⟩
        rw [hheld] at havailable
        rw [replicate_succ, scan, ← hid, hlookup] at hs'
        simp only [hpos, Scan.visitExtra, vectorAt_eq_ok.2 hhave, vectorAt_eq_ok.2 havailable,
          ok_bind, Bool.not_true, if_neg Bool.false_ne_true, error_bind] at hs'
        exact nomatch hs'
  · refine iff_of_true ⟨s, ?_⟩ fun hnot => hmem hnot.1
    induction n + 1 with
    | zero => rfl
    | succ n ih =>
      rw [replicate_succ, scan, haddr.other _ hmem]
      change (if s.mempool_count == UInt64.ofNat shorttxids.keys.card then Except.ok s else _) = _
      split_ifs
      · rfl
      · exact ih

end

end

end Scan

end PartiallyDownloadedBlock

end Coinyecoin
