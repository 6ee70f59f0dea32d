import Coinyecoin.Foundation.Runs
import Coinyecoin.Net.Downloads

/-!
# Assertions of a compact block download

No assertion of the object for a compact block, or of the bookkeeping of blocks in
flight, fails, but one: `FillBlock` leaves an object that it cannot be called on
again, and after a collision of short ids this object stays where the next `blocktxn`
message finds it.
-/

namespace Coinyecoin

open Foundation ReadStatus List Finmap Option PartiallyDownloadedBlock

variable {β : Type} {p : PartiallyDownloadedBlock} {hash : uint256} {queued : QueuedBlock}
  {nodeid : NodeId} {event : DownloadEvent} {fuel : ℕ} {cmpctblock : CBlockHeaderAndShortTxIDs}
  {vTxHashes : List (uint256 × CTransaction)} {extra_txn : List (uint256 × CTransactionRef)}

def Fault.isAssert : Fault → Bool
  | .assertFailed _ => true
  | _ => false

def Stop.isAssert : Stop → Bool
  | .fault f => f.isAssert
  | .outOfFuel => false

/-- The computation fails no assertion, and a value it returns has the property. -/
abbrev Calm {α : Type} (P : α → Prop) (x : Except Fault α) : Prop :=
  Ends (fun f => f.isAssert = false) P x

abbrev CalmStop {α : Type} (P : α → Prop) (x : Except Stop α) : Prop :=
  Ends (fun stop => stop.isAssert = false) P x

theorem Calm.orStop {α : Type} {P : α → Prop} {x : Except Fault α} (h : Calm P x) :
    CalmStop P (orStop x) := by
  cases x with
  | error f => exact h
  | ok a => exact h

section

variable {α : Type}

variable {v : List α} {n : ℕ}

theorem calm_vectorAt : Calm (fun _ => True) (vectorAt v n) := by
  rw [vectorAt]
  cases v[n]? with
  | none => rfl
  | some a => trivial

theorem calm_vectorSet {a : α} : Calm (fun v' => v'.length = v.length) (vectorSet v n a) := by
  rw [vectorSet]
  split_ifs
  · exact length_set
  · rfl

end

namespace PartiallyDownloadedBlock

section

variable {env : RelayEnv}

theorem calm_prefill (nShort i : ℕ) (last : ℤ) (l : List PrefilledTransaction)
    (txn_available : List CTransactionRef) :
    Calm (fun r => r.2.length = txn_available.length) (prefill nShort i last l txn_available) := by
  induction l generalizing i last txn_available with
  | nil => exact rfl
  | cons prefilled rest ih =>
    rw [prefill]
    split_ifs
    · exact rfl
    · simp only
      split_ifs
      · exact rfl
      · exact rfl
      · exact calm_vectorSet.bind fun v hv => (ih _ _ v).imp fun r hr => hr.trans hv

theorem calm_nextFree (txn_available : List CTransactionRef) (i fuel : ℕ) (offset : UInt16) :
    CalmStop (fun _ => True) (nextFree txn_available i fuel offset) := by
  induction fuel generalizing offset with
  | zero => rfl
  | succ fuel ih =>
    rw [nextFree]
    refine calm_vectorAt.orStop.bind fun slot _ => ?_
    split_ifs
    · exact ih _
    · trivial

theorem calm_assignIds (fuel nBuckets : ℕ) (txn_available : List CTransactionRef)
    (done ids : List UInt64) (offset : UInt16) (m : ShortIds) :
    CalmStop (fun _ => True) (assignIds env fuel nBuckets txn_available done offset m ids) := by
  induction ids generalizing done offset m with
  | nil => trivial
  | cons id ids ih =>
    rw [assignIds]
    refine (calm_nextFree _ _ _ _).bind fun offset' _ => ?_
    split_ifs
    · trivial
    · exact ih _ _ _

variable (s : Scan) (n : ℕ) (ref : CTransactionRef)

theorem calm_layOut :
    CalmStop (fun r => r.2.1.header = cmpctblock.header ∧
      r.2.1.txn_available.length = cmpctblock.blockTxCount) (layOut env fuel p cmpctblock) := by
  rw [layOut]
  refine (calm_prefill _ _ _ _ _).orStop.bind fun ⟨status, filled⟩ hfilled => ?_
  simp only [length_replicate] at hfilled ⊢
  split_ifs
  · exact ⟨rfl, hfilled⟩
  · have hmap : CalmStop (fun _ => True) (mapIds env fuel filled cmpctblock.shorttxids) := by
      rw [mapIds]
      refine (calm_assignIds _ _ _ _ _ _ _).bind fun ⟨status, m⟩ _ => ?_
      simp only
      split_ifs <;> trivial
    exact hmap.bind fun _ _ => ⟨rfl, hfilled⟩

theorem calm_place :
    Calm (fun s' => s'.txn_available.length = s.txn_available.length) (s.place n ref) :=
  calm_vectorSet.bind fun _ hv => calm_vectorSet.bind fun _ _ => hv

theorem calm_reset :
    Calm (fun s' => s'.txn_available.length = s.txn_available.length) (s.reset n) :=
  calm_vectorSet.bind fun _ hv => hv

theorem calm_visitPool (tx : CTransaction) :
    Calm (fun s' => s'.txn_available.length = s.txn_available.length) (s.visitPool n tx) := by
  refine calm_vectorAt.bind fun tried _ => ?_
  split_ifs
  · exact calm_place s n (some tx)
  · refine calm_vectorAt.bind fun found _ => ?_
    cases found with
    | none => exact rfl
    | some found => exact calm_reset s n

theorem calm_visitExtra :
    Calm (fun s' => s'.txn_available.length = s.txn_available.length) (s.visitExtra env n ref) := by
  refine calm_vectorAt.bind fun tried _ => ?_
  split_ifs
  · exact (calm_place s n ref).bind fun _ hs => hs
  · refine calm_vectorAt.bind fun found _ => ?_
    cases found with
    | none => exact rfl
    | some found =>
      cases ref with
      | none => exact rfl
      | some extra =>
        simp only
        split_ifs
        · exact (calm_reset s n).bind fun _ hs => hs
        · exact rfl

variable (shorttxids : ShortIds) (getShortID : uint256 → UInt64)

theorem calm_scan
    {visit : Scan → ℕ → β → Except Fault Scan} (hvisit : ∀ s n b,
      Calm (fun s' => s'.txn_available.length = s.txn_available.length) (visit s n b))
    (s : Scan) (l : List (uint256 × β)) :
    Calm (fun s' => s'.txn_available.length = s.txn_available.length)
      (s.scan shorttxids getShortID visit l) := by
  induction l generalizing s with
  | nil => exact rfl
  | cons entry l ih =>
    obtain ⟨hash, b⟩ := entry
    have hrest : ∀ s₁ : Scan, s₁.txn_available.length = s.txn_available.length →
        Calm (fun s' => s'.txn_available.length = s.txn_available.length)
          (if s₁.mempool_count == UInt64.ofNat shorttxids.keys.card then .ok s₁
            else s₁.scan shorttxids getShortID visit l) := by
      intro s₁ hs₁
      split_ifs
      · exact hs₁
      · exact (ih s₁).imp fun s' hs' => hs'.trans hs₁
    rw [Scan.scan]
    cases shorttxids.lookup (getShortID hash) with
    | none => exact hrest s rfl
    | some n => exact (hvisit s n.toNat b).bind hrest

theorem calm_findTransactions :
    Calm (fun p' => p'.header = p.header ∧ p'.txn_available.length = p.txn_available.length)
      (findTransactions env p shorttxids getShortID vTxHashes extra_txn) := by
  refine (calm_scan shorttxids getShortID calm_visitPool _ vTxHashes).bind fun s₁ hs₁ => ?_
  exact (calm_scan shorttxids getShortID calm_visitExtra s₁ extra_txn).bind fun s₂ hs₂ =>
    ⟨rfl, hs₂.trans hs₁⟩

theorem calm_initData :
    CalmStop (fun r => r.1 ≠ READ_STATUS_INVALID → r.2.header.isNull = false ∧
      r.2.txn_available.length = cmpctblock.blockTxCount)
      (initData env fuel init cmpctblock vTxHashes extra_txn) := by
  rw [initData]
  split_ifs with hnull hlong
  · exact fun hne => absurd rfl hne
  · exact fun hne => absurd rfl hne
  rw [assertThat_of_true ⟨rfl, rfl⟩]
  have hheader : cmpctblock.header.isNull = false := by
    simp only [Bool.or_eq_true, not_or, Bool.not_eq_true] at hnull
    exact hnull.1
  refine calm_layOut.bind fun ⟨status, p, m⟩ ⟨hset, hlength⟩ => ?_
  simp only at hset hlength ⊢
  split_ifs
  · exact fun _ => ⟨by rw [hset, hheader], hlength⟩
  · refine (calm_findTransactions m _).orStop.bind fun p' ⟨hkept, hsame⟩ _ => ?_
    exact ⟨by rw [hkept, hset, hheader], hsame.trans hlength⟩

section

variable (hheader : p.header.isNull = false)
include hheader

theorem calm_isTxAvailable
    {n : ℕ} (hn : n < p.txn_available.length) : Calm (fun _ => True) (p.isTxAvailable n) := by
  rw [isTxAvailable, assertThat_of_true (by rw [hheader]; exact Bool.false_ne_true), ok_bind,
    assertThat_of_true hn, ok_bind]
  exact calm_vectorAt.bind fun _ _ => trivial

theorem calm_missingIndexes {l : List ℕ} (hl : ∀ n ∈ l, n < p.txn_available.length) :
    Calm (fun _ => True) (Downloads.missingIndexes p l) := by
  induction l with
  | nil => trivial
  | cons n l ih =>
    rw [Downloads.missingIndexes]
    refine (calm_isTxAvailable hheader (hl n mem_cons_self)).bind fun _ _ => ?_
    exact (ih fun k hk => hl k (mem_cons_of_mem n hk)).bind fun _ _ => trivial

theorem calm_fillBlock
    (vtx_missing : List CTransaction) : Calm (fun _ => True) (fillBlock env p vtx_missing) := by
  rw [fillBlock, assertThat_of_true (by rw [hheader]; exact Bool.false_ne_true), ok_bind]
  cases fill p.txn_available vtx_missing with
  | error left => trivial
  | ok filled =>
    simp only
    split_ifs
    · trivial
    · cases env.checkBlock ⟨p.header, filled.1⟩ with
      | ok u => trivial
      | error reject => trivial

end

end

end PartiallyDownloadedBlock

namespace Downloads

structure Linked (s : Downloads) : Prop where
  queued : ∀ hash queued, s.mapBlocksInFlight.lookup hash = some queued →
    ∃ queue, s.mapNodeState.lookup queued.nodeid = some queue ∧ hash ∈ queue
  listed : ∀ nodeid queue, s.mapNodeState.lookup nodeid = some queue →
    queue.Nodup ∧ ∀ hash ∈ queue, ∃ queued, s.mapBlocksInFlight.lookup hash = some queued ∧
      queued.nodeid = nodeid

def UsedUp (s : Downloads) (nodeid : NodeId) (hash : uint256) : Prop :=
  ∃ p, s.mapBlocksInFlight.lookup hash = some ⟨nodeid, some p⟩ ∧ p.header.isNull = true

/-- A step from `s` to `s'` that uses up no object. -/
structure Follows (s s' : Downloads) : Prop where
  linked : s'.Linked
  usedUp : ∀ nodeid hash, s'.UsedUp nodeid hash → s.UsedUp nodeid hash

section

variable {s : Downloads}

theorem linked_init : Linked init where
  queued _ _ h := nomatch h
  listed _ _ h := nomatch h

theorem linked_initializeNode (h : s.Linked) {nodeid : NodeId} :
    (s.initializeNode nodeid).Linked := by
  rw [initializeNode]
  split_ifs with hmem
  · exact h
  refine ⟨fun hash queued hqueued => ?_, fun other queue hqueue => ?_⟩
  · obtain ⟨queue, hqueue, hhash⟩ := h.queued hash queued hqueued
    have hne : queued.nodeid ≠ nodeid := by
      rintro rfl
      exact hmem (mem_iff.2 ⟨queue, hqueue⟩)
    exact ⟨queue, by rw [lookup_insert_of_ne _ hne, hqueue], hhash⟩
  · by_cases hne : other = nodeid
    · subst hne
      rw [lookup_insert, some_inj] at hqueue
      subst hqueue
      exact ⟨nodup_nil, fun _ hhash => absurd hhash not_mem_nil⟩
    · rw [lookup_insert_of_ne _ hne] at hqueue
      exact h.listed other queue hqueue

theorem lookup_erase_eq (m : Finmap fun _ : uint256 => β) (hash other : uint256) :
    (m.erase hash).lookup other = if other = hash then none else m.lookup other := by
  split_ifs with heq
  · rw [heq, lookup_erase]
  · rw [lookup_erase_ne heq]

theorem lookup_insert_eq {α β : Type} [DecidableEq α] (m : Finmap fun _ : α => β) (key other : α)
    (b : β) : (m.insert key b).lookup other = if other = key then some b else m.lookup other := by
  split_ifs with heq
  · rw [heq, lookup_insert]
  · rw [lookup_insert_of_ne _ heq]

theorem markBlockAsReceived_ok (h : s.Linked) {hash : uint256} :
    ∃ s', s.markBlockAsReceived hash = .ok s' ∧ s'.Linked ∧
      (∀ nodeid, nodeid ∈ s'.mapNodeState ↔ nodeid ∈ s.mapNodeState) ∧
      ∀ other, s'.mapBlocksInFlight.lookup other =
        if other = hash then none else s.mapBlocksInFlight.lookup other := by
  rw [markBlockAsReceived]
  cases hqueued : s.mapBlocksInFlight.lookup hash with
  | none =>
    refine ⟨s, rfl, h, fun _ => Iff.rfl, fun other => ?_⟩
    split_ifs with heq
    · rw [heq, hqueued]
    · rfl
  | some queued =>
    obtain ⟨queue, hqueue, hhash⟩ := h.queued hash queued hqueued
    have hstate : s.vBlocksInFlight queued.nodeid = .ok queue := by rw [vBlocksInFlight, hqueue]
    have hnodup := (h.listed queued.nodeid queue hqueue).1
    refine ⟨_, bind_eq_ok.2 ⟨queue, hstate, rfl⟩, ⟨fun other otherQueued hother => ?_,
      fun nodeid queue' hqueue' => ?_⟩, fun nodeid => ?_, lookup_erase_eq _ hash⟩
    · rw [lookup_erase_eq] at hother
      split_ifs at hother with hne
      obtain ⟨queue', hqueue', hmem⟩ := h.queued other otherQueued hother
      rw [lookup_insert_eq]
      split_ifs with hsame
      · rw [hsame, hqueue, some_inj] at hqueue'
        exact ⟨_, rfl, (mem_erase_of_ne hne).2 (hqueue' ▸ hmem)⟩
      · exact ⟨queue', hqueue', hmem⟩
    · rw [lookup_insert_eq] at hqueue'
      split_ifs at hqueue' with hsame
      · obtain rfl := some_inj.1 hqueue'
        refine ⟨hnodup.erase hash, fun other hother => ?_⟩
        obtain ⟨hne, hmem⟩ := hnodup.mem_erase_iff.1 hother
        rw [lookup_erase_eq, if_neg hne, hsame]
        exact (h.listed queued.nodeid queue hqueue).2 other hmem
      · obtain ⟨hnodup', hlisted⟩ := h.listed nodeid queue' hqueue'
        refine ⟨hnodup', fun other hother => ?_⟩
        obtain ⟨otherQueued, hlookup, hnode⟩ := hlisted other hother
        have hne : other ≠ hash := by
          rintro rfl
          rw [hqueued, some_inj] at hlookup
          exact hsame (by rw [← hnode, hlookup])
        exact ⟨otherQueued, by rw [lookup_erase_eq, if_neg hne, hlookup], hnode⟩
    · rw [mem_insert]
      refine or_iff_right_of_imp fun heq => ?_
      rw [heq]
      exact mem_iff.2 ⟨queue, hqueue⟩

theorem linked_setPartialBlock (h : s.Linked)
    (hqueued : s.mapBlocksInFlight.lookup hash = some queued) {p : PartiallyDownloadedBlock} :
    (s.setPartialBlock hash queued.nodeid p).Linked := by
  refine ⟨fun other otherQueued hother => ?_, fun nodeid queue hqueue => ?_⟩
  · rw [setPartialBlock, lookup_insert_eq] at hother
    split_ifs at hother with heq
    · obtain rfl := some_inj.1 hother
      rw [heq]
      exact h.queued hash queued hqueued
    · exact h.queued other otherQueued hother
  · obtain ⟨hnodup, hlisted⟩ := h.listed nodeid queue hqueue
    refine ⟨hnodup, fun other hother => ?_⟩
    rw [setPartialBlock, lookup_insert_eq]
    split_ifs with heq
    · obtain ⟨otherQueued, hlookup, hnode⟩ := hlisted other hother
      rw [heq, hqueued, some_inj] at hlookup
      exact ⟨_, rfl, by rw [← hnode, hlookup]⟩
    · exact hlisted other hother

theorem markBlockAsInFlight_new (h : s.Linked) (hnode : nodeid ∈ s.mapNodeState)
    (hnew : (s.mapBlocksInFlight.lookup hash).any (·.nodeid = nodeid) = false) (fPit : Bool) :
    ∃ s', s.markBlockAsInFlight nodeid hash fPit = .ok (s', true) ∧ s'.Linked ∧
      (∀ other, other ∈ s'.mapNodeState ↔ other ∈ s.mapNodeState) ∧
      ∀ other, s'.mapBlocksInFlight.lookup other = if other = hash then
        some ⟨nodeid, if fPit then some .init else none⟩ else s.mapBlocksInFlight.lookup other := by
  obtain ⟨s₁, hreceived, hlinked, hnodes, hlookup⟩ := markBlockAsReceived_ok h
  obtain ⟨queue, hqueue⟩ := mem_iff.1 ((hnodes nodeid).2 hnode)
  have hstate : s₁.vBlocksInFlight nodeid = .ok queue := by rw [vBlocksInFlight, hqueue]
  obtain ⟨hnodup, hlisted⟩ := hlinked.listed nodeid queue hqueue
  have hnot : hash ∉ queue := by
    intro hmem
    obtain ⟨queued, hqueued, -⟩ := hlisted hash hmem
    rw [hlookup, if_pos rfl] at hqueued
    exact nomatch hqueued
  refine ⟨⟨s₁.mapNodeState.insert nodeid (queue ++ [hash]), s₁.mapBlocksInFlight.insert hash
    ⟨nodeid, if fPit then some .init else none⟩⟩, ?_, ⟨fun other queued hqueued => ?_,
    fun other queue' hqueue' => ?_⟩, fun other => ?_, fun other => ?_⟩
  · rw [markBlockAsInFlight, assertThat_of_true hnode, ok_bind, if_neg (by rw [hnew]; decide),
      hreceived, ok_bind, hstate]
    rfl
  · rw [lookup_insert_eq] at hqueued
    by_cases heq : other = hash
    · rw [if_pos heq] at hqueued
      obtain rfl := some_inj.1 hqueued
      refine ⟨queue ++ [hash], lookup_insert _, ?_⟩
      rw [heq]
      exact mem_append_right _ (mem_singleton.2 rfl)
    · rw [if_neg heq] at hqueued
      obtain ⟨queue', hqueue', hmem⟩ := hlinked.queued other queued hqueued
      rw [lookup_insert_eq]
      split_ifs with hsame
      · rw [hsame, hqueue, some_inj] at hqueue'
        exact ⟨_, rfl, mem_append_left _ (hqueue' ▸ hmem)⟩
      · exact ⟨queue', hqueue', hmem⟩
  · rw [lookup_insert_eq] at hqueue'
    split_ifs at hqueue' with hsame
    · obtain rfl := some_inj.1 hqueue'
      refine ⟨?_, fun hash' hmem => ?_⟩
      · rw [← concat_eq_append]
        exact hnodup.concat hnot
      rw [lookup_insert_eq]
      by_cases heq : hash' = hash
      · exact ⟨_, if_pos heq, hsame.symm⟩
      · have hmem' : hash' ∈ queue := (mem_append.1 hmem).resolve_right fun hlast =>
          heq (mem_singleton.1 hlast)
        rw [hsame, if_neg heq]
        exact hlisted hash' hmem'
    · obtain ⟨hnodup', hlisted'⟩ := hlinked.listed other queue' hqueue'
      refine ⟨hnodup', fun hash' hmem => ?_⟩
      obtain ⟨queued, hqueued, hother⟩ := hlisted' hash' hmem
      have hne : hash' ≠ hash := by
        rintro rfl
        rw [hlookup, if_pos rfl] at hqueued
        exact nomatch hqueued
      exact ⟨queued, by rw [lookup_insert_eq, if_neg hne, hqueued], hother⟩
  · rw [mem_insert, hnodes]
    exact or_iff_right_of_imp fun heq => heq ▸ hnode
  · rw [lookup_insert_eq, hlookup]
    by_cases heq : other = hash
    · rw [if_pos heq, if_pos heq]
    · rw [if_neg heq, if_neg heq, if_neg heq]

theorem lookup_foldl_erase (m : Finmap fun _ : uint256 => β) (queue : List uint256)
    (hash : uint256) : (queue.foldl (fun m hash => m.erase hash) m).lookup hash =
      if hash ∈ queue then none else m.lookup hash := by
  induction queue generalizing m with
  | nil => simp
  | cons first queue ih =>
    rw [foldl_cons, ih, lookup_erase_eq]
    by_cases hfirst : hash = first
    · simp [hfirst]
    · simp [hfirst]

theorem calm_finalizeNode (h : s.Linked) {nodeid : NodeId} :
    Calm (Follows s) (s.finalizeNode nodeid) := by
  rw [finalizeNode]
  cases hqueue : s.mapNodeState.lookup nodeid with
  | none =>
    rw [vBlocksInFlight, hqueue]
    rfl
  | some queue =>
    have hstate : s.vBlocksInFlight nodeid = .ok queue := by rw [vBlocksInFlight, hqueue]
    obtain ⟨-, hlisted⟩ := h.listed nodeid queue hqueue
    have hlinked : Linked ⟨s.mapNodeState.erase nodeid,
        queue.foldl (fun m hash => m.erase hash) s.mapBlocksInFlight⟩ := by
      refine ⟨fun hash queued hqueued => ?_, fun other queue' hqueue' => ?_⟩
      · rw [lookup_foldl_erase] at hqueued
        split_ifs at hqueued with hmem
        obtain ⟨queue', hqueue', hmem'⟩ := h.queued hash queued hqueued
        have hne : queued.nodeid ≠ nodeid := by
          intro heq
          rw [heq, hqueue, some_inj] at hqueue'
          exact hmem (hqueue' ▸ hmem')
        exact ⟨queue', by rw [lookup_erase_ne hne, hqueue'], hmem'⟩
      · have hne : other ≠ nodeid := by
          rintro rfl
          rw [lookup_erase] at hqueue'
          exact nomatch hqueue'
        rw [lookup_erase_ne hne] at hqueue'
        obtain ⟨hnodup, hlisted'⟩ := h.listed other queue' hqueue'
        refine ⟨hnodup, fun hash hmem => ?_⟩
        obtain ⟨queued, hqueued, hother⟩ := hlisted' hash hmem
        refine ⟨queued, ?_, hother⟩
        rw [lookup_foldl_erase, if_neg, hqueued]
        intro hmem'
        obtain ⟨queued', hqueued', hnode⟩ := hlisted hash hmem'
        rw [hqueued, some_inj] at hqueued'
        exact hne (by rw [← hother, hqueued', hnode])
    have hfollows : Follows s ⟨s.mapNodeState.erase nodeid,
        queue.foldl (fun m hash => m.erase hash) s.mapBlocksInFlight⟩ := by
      refine ⟨hlinked, fun other hash ⟨p, hp, hnull⟩ => ?_⟩
      rw [lookup_foldl_erase] at hp
      split_ifs at hp
      exact ⟨p, hp, hnull⟩
    rw [hstate, ok_bind]
    by_cases hlast : (s.mapNodeState.erase nodeid).keys = ∅
    · have hempty : (queue.foldl (fun m hash => m.erase hash) s.mapBlocksInFlight).keys = ∅ := by
        refine Finset.eq_empty_of_forall_notMem fun hash hmem => ?_
        obtain ⟨queued, hqueued⟩ := mem_iff.1 (mem_keys.1 hmem)
        obtain ⟨queue', hqueue', -⟩ := hlinked.queued hash queued hqueued
        have hkey : queued.nodeid ∈ (s.mapNodeState.erase nodeid).keys :=
          mem_keys.2 (mem_iff.2 ⟨queue', hqueue'⟩)
        rw [hlast] at hkey
        exact absurd hkey (Finset.notMem_empty _)
      simp only [hlast, if_true, assertThat_of_true hempty]
      exact hfollows
    · simp only [hlast, if_false]
      exact hfollows

variable {env : NodeEnv}

theorem follows_refl (h : s.Linked) : Follows s s := ⟨h, fun _ _ h => h⟩

/-- A change of one block in flight, whose new object, if any, has a header. -/
structure ChangesAt (hash : uint256) (s s' : Downloads) : Prop where
  linked : s'.Linked
  other : ∀ other, other ≠ hash →
    s'.mapBlocksInFlight.lookup other = s.mapBlocksInFlight.lookup other
  header : ∀ nodeid p, s'.mapBlocksInFlight.lookup hash = some ⟨nodeid, some p⟩ →
    p.header.isNull = false

theorem ChangesAt.follows {s' : Downloads} (h : ChangesAt hash s s') : Follows s s' := by
  refine ⟨h.linked, fun nodeid other ⟨p, hlookup, hnull⟩ => ?_⟩
  by_cases heq : other = hash
  · rw [heq] at hlookup
    rw [h.header nodeid p hlookup] at hnull
    exact nomatch hnull
  · exact ⟨p, by rw [← h.other other heq, hlookup], hnull⟩

section

variable (h : s.Linked)
include h

theorem calm_markBlockAsReceived (hash : uint256) :
    Calm (ChangesAt hash s) (s.markBlockAsReceived hash) := by
  obtain ⟨s', hs', hlinked, -, hlookup⟩ := markBlockAsReceived_ok h
  rw [hs']
  refine ⟨hlinked, fun other hne => by rw [hlookup, if_neg hne], fun nodeid p hp => ?_⟩
  rw [hlookup, if_pos rfl] at hp
  exact nomatch hp

section

variable (hqueued : s.mapBlocksInFlight.lookup hash = some queued)
include hqueued

theorem calm_setPartialBlock_received (p : PartiallyDownloadedBlock) :
    Calm (ChangesAt hash s)
      ((s.setPartialBlock hash queued.nodeid p).markBlockAsReceived hash) := by
  refine (calm_markBlockAsReceived (linked_setPartialBlock h hqueued) hash).imp fun s' hs' =>
    ⟨hs'.linked, fun other hne => ?_, hs'.header⟩
  rw [hs'.other other hne, setPartialBlock, lookup_insert_eq, if_neg hne]

theorem changesAt_setPartialBlock (hp : p.header.isNull = false) :
    ChangesAt hash s (s.setPartialBlock hash queued.nodeid p) := by
  refine ⟨linked_setPartialBlock h hqueued, fun other hne => ?_, fun nodeid p' hp' => ?_⟩
  · rw [setPartialBlock, lookup_insert_eq, if_neg hne]
  · rw [setPartialBlock, lookup_insert_eq, if_pos rfl] at hp'
    obtain ⟨-, hp'⟩ := QueuedBlock.mk.inj (some_inj.1 hp')
    rw [← some_inj.1 hp', hp]

theorem calm_downloadCompact :
    CalmStop (fun r => ChangesAt hash s r.1)
      (s.downloadCompact env fuel queued.nodeid cmpctblock hash vTxHashes extra_txn) := by
  refine calm_initData.bind fun ⟨status, p⟩ hp => ?_
  have hrequest (hne : status ≠ READ_STATUS_INVALID) :
      CalmStop (fun r => ChangesAt hash s r.1) (do
        let indexes ← orStop (missingIndexes p (List.range cmpctblock.blockTxCount))
        .ok (s.setPartialBlock hash queued.nodeid p, [if indexes.isEmpty then
          Reaction.processBlockTxn hash else Reaction.getblocktxn hash indexes])) := by
    obtain ⟨hheader, hlength⟩ := hp hne
    refine (calm_missingIndexes hheader fun n hn => ?_).orStop.bind
      fun _ _ => changesAt_setPartialBlock h hqueued hheader
    simp only at hlength
    rw [hlength]
    exact mem_range.1 hn
  cases status with
  | READ_STATUS_INVALID =>
    exact (calm_setPartialBlock_received h hqueued p).orStop.bind fun _ hs' => hs'
  | READ_STATUS_FAILED => exact changesAt_setPartialBlock h hqueued (hp nofun).1
  | READ_STATUS_OK => exact hrequest nofun
  | READ_STATUS_CHECKBLOCK_FAILED => exact hrequest nofun

end

theorem calm_tryCompact :
    CalmStop (fun r => Follows s r.1) (s.tryCompact env fuel cmpctblock vTxHashes extra_txn) := by
  refine calm_initData.bind fun ⟨status, p⟩ hp => ?_
  simp only
  split_ifs with hstatus
  · exact follows_refl h
  · obtain rfl := not_not.1 hstatus
    refine (calm_fillBlock (hp nofun).1 []).orStop.bind
      fun ⟨status, p', block⟩ _ => ?_
    simp only
    split <;> exact follows_refl h

theorem calm_processNearTip (hnode : nodeid ∈ s.mapNodeState) :
    CalmStop (fun r => Follows s r.1)
      (s.processNearTip env fuel nodeid cmpctblock hash vTxHashes extra_txn) := by
  obtain ⟨queue, hqueue⟩ := mem_iff.1 hnode
  have hstate : s.vBlocksInFlight nodeid = .ok queue := by rw [vBlocksInFlight, hqueue]
  have htry : CalmStop (fun r => Follows s r.1)
      (s.tryCompact env fuel cmpctblock vTxHashes extra_txn) := calm_tryCompact h
  rw [processNearTip, hstate]
  change CalmStop _ (if _ then _ else _)
  cases hlookup : s.mapBlocksInFlight.lookup hash with
  | none =>
    split_ifs
    · obtain ⟨s₁, hmark, hlinked, -, hlookup₁⟩ := markBlockAsInFlight_new h hnode
        (by rw [hlookup]; rfl : (s.mapBlocksInFlight.lookup hash).any _ = false) true
      have hqueued := hlookup₁ hash
      rw [if_pos rfl] at hqueued
      rw [hmark]
      refine (calm_downloadCompact hlinked hqueued).imp
        fun r hr => ChangesAt.follows ⟨hr.linked, fun other hne => ?_, hr.header⟩
      rw [hr.other other hne, hlookup₁, if_neg hne]
    · exact htry
  | some queued =>
    by_cases hsame : queued.nodeid = nodeid
    · subst hsame
      have hmark : s.markBlockAsInFlight queued.nodeid hash true = .ok (s, false) := by
        rw [markBlockAsInFlight, assertThat_of_true hnode, ok_bind, hlookup, if_pos (by simp)]
        rfl
      rw [if_pos (by simp), hmark]
      change CalmStop _ (if _ then _ else _)
      split_ifs
      · exact follows_refl h
      · exact (calm_downloadCompact h hlookup).imp fun r hr => hr.follows
    · rw [if_neg (by simp [hsame])]
      exact htry

theorem calm_processCmpctBlock (hnode : nodeid ∈ s.mapNodeState) (view : HeaderView) :
    CalmStop (fun r => Follows s r.1)
      (s.processCmpctBlock env fuel nodeid cmpctblock view vTxHashes extra_txn) := by
  have hsame := follows_refl h
  rw [processCmpctBlock]
  split
  · exact hsame
  split
  · exact hsame
  split
  · exact hsame
  split
  · exact hsame
  split
  · exact hsame
  split
  · exact hsame
  split
  · exact calm_processNearTip h hnode
  · exact hsame

theorem calm_processBlockTxn (hfresh : ¬ s.UsedUp nodeid hash) (txn : List CTransaction) :
    Calm (fun r => r.1.Linked ∧ ∀ other hash', r.1.UsedUp other hash' → s.UsedUp other hash' ∨
      other = nodeid ∧ hash' = hash ∧ r.2 = [.getdata hash])
      (s.processBlockTxn env nodeid hash txn) := by
  have hsame : s.Linked ∧ ∀ other hash', s.UsedUp other hash' → s.UsedUp other hash' ∨
      other = nodeid ∧ hash' = hash ∧ ([] : List Reaction) = [.getdata hash] :=
    ⟨h, fun _ _ hused => .inl hused⟩
  rw [processBlockTxn]
  cases hlookup : s.mapBlocksInFlight.lookup hash with
  | none => exact hsame
  | some queued =>
    obtain ⟨other, partialBlock⟩ := queued
    cases partialBlock with
    | none => exact hsame
    | some p =>
      simp only
      split_ifs with hother
      · exact hsame
      obtain rfl := not_not.1 hother
      have hheader : p.header.isNull = false :=
        Bool.eq_false_iff.2 fun hnull => hfresh ⟨p, hlookup, hnull⟩
      refine (calm_fillBlock hheader txn).bind fun ⟨status, p', block⟩ _ => ?_
      have hreceived (reactions : List Reaction) : Calm (fun r => r.1.Linked ∧
          ∀ node hash', r.1.UsedUp node hash' → s.UsedUp node hash' ∨
            node = other ∧ hash' = hash ∧ r.2 = [.getdata hash])
          (do
            let s ← (s.setPartialBlock hash other p').markBlockAsReceived hash
            .ok (s, reactions)) :=
        (calm_setPartialBlock_received h hlookup p').bind fun s' hs' =>
          ⟨hs'.linked, fun node hash' hused => .inl (hs'.follows.usedUp node hash' hused)⟩
      cases status with
      | READ_STATUS_FAILED =>
        refine ⟨linked_setPartialBlock h hlookup, fun node hash' ⟨q, hq, hnull⟩ => ?_⟩
        rw [setPartialBlock, lookup_insert_eq] at hq
        split_ifs at hq with heq
        · obtain ⟨rfl, -⟩ := QueuedBlock.mk.inj (some_inj.1 hq)
          exact .inr ⟨rfl, heq, rfl⟩
        · exact .inl ⟨q, hq, hnull⟩
      | READ_STATUS_INVALID => exact hreceived _
      | READ_STATUS_OK => exact hreceived _
      | READ_STATUS_CHECKBLOCK_FAILED => exact hreceived _

end

theorem calm_fetchBlocks {vToFetch : List uint256} (h : s.Linked)
    (hnode : nodeid ∈ s.mapNodeState) (hnodup : vToFetch.Nodup)
    (hnew : ∀ hash ∈ vToFetch, s.mapBlocksInFlight.lookup hash = none) :
    Calm (fun r => Follows s r.1) (fetchBlocks nodeid s vToFetch) := by
  induction vToFetch generalizing s with
  | nil => exact follows_refl h
  | cons hash vToFetch ih =>
    obtain ⟨queue, hqueue⟩ := mem_iff.1 hnode
    have hstate : s.vBlocksInFlight nodeid = .ok queue := by rw [vBlocksInFlight, hqueue]
    obtain ⟨hnot, hnodup⟩ := nodup_cons.1 hnodup
    rw [fetchBlocks, hstate, ok_bind]
    split_ifs
    · exact follows_refl h
    obtain ⟨s₁, hmark, hlinked, hnodes, hlookup⟩ := markBlockAsInFlight_new h hnode
      (by rw [hnew hash mem_cons_self]; rfl :
        (s.mapBlocksInFlight.lookup hash).any _ = false) false
    have hfirst : ChangesAt hash s s₁ := by
      refine ⟨hlinked, fun other hne => by rw [hlookup, if_neg hne], fun node p hp => ?_⟩
      rw [hlookup, if_pos rfl] at hp
      exact nomatch hp
    rw [hmark, ok_bind]
    refine (ih hlinked ((hnodes nodeid).2 hnode) hnodup fun other hother => ?_).bind
      fun r hr => ⟨hr.linked, fun node hash' hused =>
        hfirst.follows.usedUp node hash' (hr.usedUp node hash' hused)⟩
    have hne : other ≠ hash := by
      rintro rfl
      exact hnot hother
    rw [hlookup, if_neg hne]
    exact hnew other (mem_cons_of_mem hash hother)

end

section

variable {s : Downloads} {env : NodeEnv}

theorem calm_fromNode {P : Downloads × List Reaction → Prop}
    {x : Except Stop (Downloads × List Reaction)} (hsame : P (s, []))
    (hx : nodeid ∈ s.mapNodeState → CalmStop P x) : CalmStop P (s.fromNode nodeid x) := by
  rw [fromNode]
  split_ifs with hnode
  · exact hx hnode
  · exact hsame

theorem calm_step (h : s.Linked)
    (hevent : ∀ nodeid hash txn, event = .blocktxn nodeid hash txn → ¬ s.UsedUp nodeid hash) :
    CalmStop (fun r => r.1.Linked ∧ ∀ nodeid hash, r.1.UsedUp nodeid hash →
      s.UsedUp nodeid hash ∨ ∃ txn, event = .blocktxn nodeid hash txn ∧ r.2 = [.getdata hash])
      (s.step env fuel event) := by
  have hfollows : ∀ {s' : Downloads}, Follows s s' → s'.Linked ∧ ∀ nodeid hash,
      s'.UsedUp nodeid hash → s.UsedUp nodeid hash ∨
        ∃ txn, event = .blocktxn nodeid hash txn ∧ ([] : List Reaction) = [.getdata hash] :=
    fun hs' => ⟨hs'.linked, fun nodeid hash hused => .inl (hs'.usedUp nodeid hash hused)⟩
  have hsame := hfollows (follows_refl h)
  cases event with
  | connect nodeid =>
    refine ⟨linked_initializeNode h, fun other hash hused => .inl ?_⟩
    change (s.initializeNode nodeid).UsedUp other hash at hused
    rw [initializeNode] at hused
    split_ifs at hused
    · exact hused
    · exact hused
  | disconnect nodeid =>
    exact calm_fromNode hsame fun _ =>
      (calm_finalizeNode h).orStop.bind fun s' hs' => hfollows hs'
  | cmpctblock nodeid message view vTxHashes extra_txn =>
    exact calm_fromNode hsame fun hnode =>
      (calm_processCmpctBlock h hnode view).imp fun r hr =>
        ⟨hr.linked, fun other hash hused => .inl (hr.usedUp other hash hused)⟩
  | blocktxn nodeid hash txn =>
    refine calm_fromNode hsame fun _ => ?_
    refine (calm_processBlockTxn h (hevent nodeid hash txn rfl) txn).orStop.imp
      fun r hr => ⟨hr.1, fun other hash' hused => ?_⟩
    rcases hr.2 other hash' hused with hused | ⟨rfl, rfl, hreaction⟩
    · exact .inl hused
    · exact .inr ⟨txn, rfl, hreaction⟩
  | received hash =>
    exact (calm_markBlockAsReceived h hash).orStop.bind fun s' hs' => hfollows hs'.follows
  | fetch nodeid vToFetch =>
    refine calm_fromNode hsame fun hnode => ?_
    refine (calm_fetchBlocks h hnode (vToFetch.nodup_dedup.filter _) fun hash hhash =>
      ?_).orStop.imp fun r hr =>
        ⟨hr.linked, fun other hash hused => .inl (hr.usedUp other hash hused)⟩
    exact isNone_iff_eq_none.1 (mem_filter.1 hhash).2

theorem mem_of_usedUp (h : s.Linked) (hused : s.UsedUp nodeid hash) : nodeid ∈ s.mapNodeState := by
  obtain ⟨p, hlookup, -⟩ := hused
  obtain ⟨queue, hqueue, -⟩ := h.queued hash _ hlookup
  exact mem_iff.2 ⟨queue, hqueue⟩

theorem notMem_of_disconnect {r : Downloads × List Reaction}
    (hrun : s.step env fuel (.disconnect nodeid) = .ok r) : nodeid ∉ r.1.mapNodeState := by
  rw [step, fromNode] at hrun
  split_ifs at hrun with hnode
  · obtain ⟨s', hfinal, heq⟩ := bind_eq_ok.1 hrun
    cases heq
    obtain ⟨queue, -, hfinal⟩ := bind_eq_ok.1 (orStop_eq_ok.1 hfinal)
    dsimp only at hfinal
    split_ifs at hfinal
    · obtain ⟨-, -, heq⟩ := bind_eq_ok.1 hfinal
      cases heq
      exact notMem_erase_self
    · cases hfinal
      exact notMem_erase_self
  · cases hrun
    exact hnode

theorem not_usedUp_of_received (h : s.Linked) {r : Downloads × List Reaction}
    (hrun : s.step env fuel (.received hash) = .ok r) : ¬ r.1.UsedUp nodeid hash := by
  obtain ⟨s', hreceived, heq⟩ := bind_eq_ok.1 hrun
  cases heq
  obtain ⟨s'', hok, -, -, hlookup⟩ := @markBlockAsReceived_ok s h hash
  cases hok.symm.trans (orStop_eq_ok.1 hreceived)
  rintro ⟨p, hp, -⟩
  rw [hlookup, if_pos rfl] at hp
  exact nomatch hp

end

end Downloads

namespace Session

open Downloads

variable {env : NodeEnv} {session : Session}

/-- The queues fit the blocks in flight, and an object that is used up was answered for. -/
structure Sound (session : Session) : Prop where
  linked : session.downloads.Linked
  usedUp : ∀ nodeid hash, session.downloads.UsedUp nodeid hash → (nodeid, hash) ∈ session.asked

theorem calm_sessionStep (h : session.Sound) (hevent : ¬ session.Repeats event) :
    CalmStop Sound (session.step env fuel event) := by
  have hcalm : CalmStop _ (session.downloads.step env fuel event) := calm_step h.linked <| by
    rintro nodeid hash txn rfl hused
    exact hevent (h.usedUp nodeid hash hused)
  rw [step]
  cases hresult : session.downloads.step env fuel event with
  | error stop =>
    rw [hresult] at hcalm
    exact hcalm
  | ok r =>
    rw [hresult] at hcalm
    obtain ⟨hlinked, hused⟩ := hcalm
    refine ⟨hlinked, fun nodeid hash hup => ?_⟩
    rcases hused nodeid hash hup with hbefore | ⟨txn, rfl, hreactions⟩
    · have hmem := h.usedUp nodeid hash hbefore
      cases event with
      | blocktxn node hash' txn =>
        change _ ∈ if _ then _ else _
        split_ifs
        · exact mem_cons_of_mem _ hmem
        · exact hmem
      | received hash' =>
        refine mem_filter.2 ⟨hmem, decide_eq_true ?_⟩
        rintro rfl
        exact not_usedUp_of_received h.linked hresult hup
      | disconnect node =>
        refine mem_filter.2 ⟨hmem, decide_eq_true ?_⟩
        rintro rfl
        exact notMem_of_disconnect hresult (mem_of_usedUp hlinked hup)
      | _ => exact hmem
    · change _ ∈ if _ then _ else _
      rw [hreactions, if_pos (mem_singleton.2 rfl)]
      exact mem_cons_self

/-- A block check that knows the block by its lock times. -/
def collisionEnv : NodeEnv where
  getHash tx := BitVec.ofNat 256 tx.nLockTime.toNat
  getWitnessHash tx := BitVec.ofNat 256 tx.nLockTime.toNat
  sipHash _ _ hash := UInt64.ofNat hash.toNat
  bucketSize _ _ _ := 1
  checkBlock block := if block.vtx.map CTransaction.nLockTime = [0, 1] then .ok ()
    else .error ⟨100, REJECT_INVALID, "bad-txnmrklroot", true⟩
  getBlockHash _ := 7

def collisionTx (nLockTime : UInt32) : CTransaction :=
  ⟨1, [⟨⟨0, 0⟩, [], 0, []⟩], [], nLockTime⟩

/-- A node announces a block with a transaction that is not known, and sends another one for it. -/
def collisionEvents : List DownloadEvent :=
  [.connect 3,
    .cmpctblock 3 ⟨⟨⟨0, 0, 0, 0, 1, 0⟩, none⟩, 0, [1], [⟨0, collisionTx 0⟩]⟩
      ⟨true, false, true, 0, false, false, true, false, true⟩ [] [],
    .blocktxn 3 7 [collisionTx 2]]

end Session

end Coinyecoin
