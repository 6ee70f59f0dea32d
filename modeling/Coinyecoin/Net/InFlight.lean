import Coinyecoin.Net.Assertions
import Coinyecoin.Foundation.Runs
import Coinyecoin.Foundation.Table

/-!
# Counters of the blocks in flight

The queues of blocks in flight with all their counters: per node the number of
blocks and of validated ones, and overall the number of nodes with a validated
block and of nodes that are preferred for download. An iterator into a queue is
the queued block that it points to. Whatever calls are made, the counters are
what they count, so that `FinalizeNode` finds nothing left after the last node.
-/

namespace Coinyecoin

open Foundation Table List

namespace InFlight

structure QueuedBlock where
  hash : uint256
  fValidatedHeaders : Bool
deriving DecidableEq, Repr

structure CNodeState where
  vBlocksInFlight : List QueuedBlock
  nBlocksInFlight : ℤ
  nBlocksInFlightValidHeaders : ℤ
  fPreferredDownload : Bool
deriving DecidableEq, Repr

def CNodeState.init : CNodeState := ⟨[], 0, 0, false⟩

structure PeerLogic where
  mapNodeState : List (NodeId × CNodeState)
  mapBlocksInFlight : Finmap fun _ : uint256 => NodeId × QueuedBlock
  nPeersWithValidatedDownloads : ℤ
  nPreferredDownload : ℤ

namespace PeerLogic

def init : PeerLogic := ⟨[], ∅, 0, 0⟩

section

variable (s : PeerLogic)

def initializeNode (nodeid : NodeId) : PeerLogic :=
  match s.mapNodeState.lookup nodeid with
  | some _ => s
  | none => { s with mapNodeState := s.mapNodeState ++ [(nodeid, CNodeState.init)] }

def updatePreferredDownload (nodeid : NodeId) (fInbound fWhitelisted fOneShot fClient : Bool) :
    Except Fault PeerLogic :=
  match s.mapNodeState.lookup nodeid with
  | none => .error .nullDereference
  | some state =>
    let fPreferredDownload := (!fInbound || fWhitelisted) && !fOneShot && !fClient
    .ok { s with
      mapNodeState := setAt nodeid { state with fPreferredDownload } s.mapNodeState
      nPreferredDownload :=
        s.nPreferredDownload - state.fPreferredDownload.toInt + fPreferredDownload.toInt }

/-- The result is whether the block was requested. -/
def markBlockAsReceived (hash : uint256) : Except Fault (PeerLogic × Bool) :=
  match s.mapBlocksInFlight.lookup hash with
  | none => .ok (s, false)
  | some (nodeid, it) =>
    match s.mapNodeState.lookup nodeid with
    | none => .error .nullDereference
    | some state =>
      let nValid := state.nBlocksInFlightValidHeaders - it.fValidatedHeaders.toInt
      .ok ({ s with
        mapNodeState := setAt nodeid { state with
          vBlocksInFlight := state.vBlocksInFlight.erase it
          nBlocksInFlight := state.nBlocksInFlight - 1
          nBlocksInFlightValidHeaders := nValid } s.mapNodeState
        mapBlocksInFlight := s.mapBlocksInFlight.erase hash
        nPeersWithValidatedDownloads :=
          if nValid = 0 ∧ it.fValidatedHeaders then s.nPeersWithValidatedDownloads - 1
          else s.nPeersWithValidatedDownloads }, true)

/-- With `fPit`, the caller asks for the iterator; `fPindex` is whether the block has an entry of
the block index. The result is false if the block was already in flight from the same node. -/
def markBlockAsInFlight (nodeid : NodeId) (hash : uint256) (fPindex fPit : Bool) :
    Except Fault (PeerLogic × Bool) :=
  if (s.mapNodeState.lookup nodeid).isNone then .error (.assertFailed "state != NULL")
  else if (s.mapBlocksInFlight.lookup hash).any (·.1 = nodeid) then
    if fPit then .ok (s, false) else .error .nullDereference
  else do
    let (s, _) ← s.markBlockAsReceived hash
    match s.mapNodeState.lookup nodeid with
    | none => .error .danglingPointer
    | some state =>
      let nValid := state.nBlocksInFlightValidHeaders + fPindex.toInt
      -- the map does not have the hash here, so that its `insert` inserts
      .ok ({ s with
        mapNodeState := setAt nodeid { state with
          vBlocksInFlight := state.vBlocksInFlight ++ [⟨hash, fPindex⟩]
          nBlocksInFlight := state.nBlocksInFlight + 1
          nBlocksInFlightValidHeaders := nValid } s.mapNodeState
        mapBlocksInFlight := s.mapBlocksInFlight.insert hash (nodeid, ⟨hash, fPindex⟩)
        nPeersWithValidatedDownloads :=
          if nValid = 1 ∧ fPindex then s.nPeersWithValidatedDownloads + 1
          else s.nPeersWithValidatedDownloads }, true)

def finalizeNode (nodeid : NodeId) : Except Fault PeerLogic :=
  match s.mapNodeState.lookup nodeid with
  | none => .error .nullDereference
  | some state => do
    let mapBlocksInFlight :=
      (state.vBlocksInFlight.map (·.hash)).foldl (fun m hash => m.erase hash) s.mapBlocksInFlight
    let nPreferredDownload := s.nPreferredDownload - state.fPreferredDownload.toInt
    let nPeersWithValidatedDownloads := s.nPeersWithValidatedDownloads -
      (decide (state.nBlocksInFlightValidHeaders ≠ 0)).toInt
    assertThat (nPeersWithValidatedDownloads ≥ 0) "nPeersWithValidatedDownloads >= 0"
    let mapNodeState := eraseAt nodeid s.mapNodeState
    let s : PeerLogic :=
      ⟨mapNodeState, mapBlocksInFlight, nPeersWithValidatedDownloads, nPreferredDownload⟩
    if mapNodeState = [] then do
      -- a consistency check after the last peer is removed
      assertThat (mapBlocksInFlight.keys = ∅) "mapBlocksInFlight.empty()"
      assertThat (nPreferredDownload = 0) "nPreferredDownload == 0"
      assertThat (nPeersWithValidatedDownloads = 0) "nPeersWithValidatedDownloads == 0"
      .ok s
    else .ok s

end

end PeerLogic

inductive PeerEvent where
  | initializeNode (nodeid : NodeId)
  | updatePreferredDownload (nodeid : NodeId) (fInbound fWhitelisted fOneShot fClient : Bool)
  | markBlockAsInFlight (nodeid : NodeId) (hash : uint256) (fPindex fPit : Bool)
  | markBlockAsReceived (hash : uint256)
  | finalizeNode (nodeid : NodeId)
deriving DecidableEq, Repr

namespace PeerLogic

def step (s : PeerLogic) : PeerEvent → Except Fault PeerLogic
  | .initializeNode nodeid => .ok (s.initializeNode nodeid)
  | .updatePreferredDownload nodeid fInbound fWhitelisted fOneShot fClient =>
    s.updatePreferredDownload nodeid fInbound fWhitelisted fOneShot fClient
  | .markBlockAsInFlight nodeid hash fPindex fPit =>
    return (← s.markBlockAsInFlight nodeid hash fPindex fPit).1
  | .markBlockAsReceived hash => return (← s.markBlockAsReceived hash).1
  | .finalizeNode nodeid => s.finalizeNode nodeid

/-- The node of a call is there, and `pit` is supplied if the block is already in flight from it. -/
def Meant (s : PeerLogic) : PeerEvent → Prop
  | .initializeNode _ => True
  | .updatePreferredDownload nodeid _ _ _ _ => (s.mapNodeState.lookup nodeid).isSome
  | .markBlockAsInFlight nodeid hash _ fPit => (s.mapNodeState.lookup nodeid).isSome ∧
      ((s.mapBlocksInFlight.lookup hash).any (·.1 = nodeid) → fPit = true)
  | .markBlockAsReceived _ => True
  | .finalizeNode nodeid => (s.mapNodeState.lookup nodeid).isSome

end PeerLogic

def CNodeState.hasValidated (state : CNodeState) : Bool :=
  state.vBlocksInFlight.any (·.fValidatedHeaders)

structure CNodeState.Counted (state : CNodeState) : Prop where
  nodup : state.vBlocksInFlight.Nodup
  blocks : state.nBlocksInFlight = state.vBlocksInFlight.length
  validHeaders : state.nBlocksInFlightValidHeaders =
    state.vBlocksInFlight.countP (·.fValidatedHeaders)

namespace PeerLogic

structure Consistent (s : PeerLogic) : Prop where
  keys : (s.mapNodeState.map Prod.fst).Nodup
  inFlight : ∀ hash nodeid it, s.mapBlocksInFlight.lookup hash = some (nodeid, it) ↔
    ∃ state, s.mapNodeState.lookup nodeid = some state ∧ it ∈ state.vBlocksInFlight ∧
      it.hash = hash
  counted : ∀ nodeid state, s.mapNodeState.lookup nodeid = some state → state.Counted
  validated : s.nPeersWithValidatedDownloads = s.mapNodeState.countP (·.2.hasValidated)
  preferred : s.nPreferredDownload = s.mapNodeState.countP (·.2.fPreferredDownload)

theorem consistent_init : init.Consistent where
  keys := List.nodup_nil
  inFlight := by simp [init]
  counted := nofun
  validated := rfl
  preferred := rfl

end PeerLogic

theorem toInt_hasValidated {state : CNodeState} (h : state.Counted) :
    state.hasValidated.toInt = if state.nBlocksInFlightValidHeaders = 0 then 0 else 1 := by
  have hiff : state.hasValidated = true ↔ state.nBlocksInFlightValidHeaders ≠ 0 := by
    rw [h.validHeaders, Int.natCast_ne_zero, ← Nat.pos_iff_ne_zero, countP_pos_iff,
      CNodeState.hasValidated, any_eq_true]
  by_cases hzero : state.nBlocksInFlightValidHeaders = 0
  · rw [if_pos hzero, Bool.eq_false_iff.2 fun h => hiff.1 h hzero]
    rfl
  · rw [if_neg hzero, hiff.2 hzero]
    rfl

theorem count_follows {a b : ℕ} {p q : Bool} (h : a + p.toNat = b + q.toNat) :
    (a : ℤ) = b - p.toInt + q.toInt := by
  cases p <;> cases q <;> simp at h ⊢ <;> omega

namespace PeerLogic

variable {s : PeerLogic} {nodeid : NodeId} {state : CNodeState} {hash : uint256} {event : PeerEvent}

section

variable (h : s.Consistent)
include h

theorem Consistent.replace {state state' : CNodeState}
    (hstate : s.mapNodeState.lookup nodeid = some state) (hcounted : state'.Counted)
    {m : Finmap fun _ : uint256 => NodeId × QueuedBlock}
    (hmap : ∀ hash other it, m.lookup hash = some (other, it) ↔
      if other = nodeid then it ∈ state'.vBlocksInFlight ∧ it.hash = hash
      else s.mapBlocksInFlight.lookup hash = some (other, it))
    {nValidated nPreferred : ℤ}
    (hvalidated : nValidated =
      s.nPeersWithValidatedDownloads - state.hasValidated.toInt + state'.hasValidated.toInt)
    (hpreferred : nPreferred =
      s.nPreferredDownload - state.fPreferredDownload.toInt + state'.fPreferredDownload.toInt) :
    Consistent ⟨setAt nodeid state' s.mapNodeState, m, nValidated, nPreferred⟩ where
  keys := by
    rw [keys_setAt]
    exact h.keys
  inFlight hash other it := by
    rw [hmap, lookup_setAt hstate]
    split_ifs with heq
    · simp
    · exact h.inFlight hash other it
  counted other st hst := by
    rw [lookup_setAt hstate] at hst
    split_ifs at hst with heq
    · obtain rfl := Option.some_inj.1 hst
      exact hcounted
    · exact h.counted other st hst
  validated := by
    rw [hvalidated, h.validated, count_follows (countP_setAt (·.2.hasValidated) hstate)]
  preferred := by
    rw [hpreferred, h.preferred, count_follows (countP_setAt (·.2.fPreferredDownload) hstate)]

theorem Consistent.initializeNode (nodeid : NodeId) : (s.initializeNode nodeid).Consistent := by
  rw [PeerLogic.initializeNode]
  cases hstate : s.mapNodeState.lookup nodeid with
  | some state => exact h
  | none =>
    have hlookup : ∀ other, (s.mapNodeState ++ [(nodeid, CNodeState.init)]).lookup other =
        if other = nodeid then some CNodeState.init else s.mapNodeState.lookup other := by
      intro other
      rw [lookup_append, lookup_cons_eq]
      by_cases heq : other = nodeid
      · rw [if_pos heq, if_pos heq, heq, hstate, Option.none_or]
      · rw [if_neg heq, if_neg heq, lookup_nil, Option.or_none]
    have hnew : nodeid ∉ s.mapNodeState.map Prod.fst := by
      intro hmem
      obtain ⟨row, hrow, heq⟩ := mem_map.1 hmem
      exact absurd heq.symm (by simpa using lookup_eq_none_iff.1 hstate row hrow)
    refine ⟨?_, fun hash other it => ?_, fun other st hst => ?_, ?_, ?_⟩
    · rw [map_append, nodup_append]
      refine ⟨h.keys, nodup_singleton _, fun a ha b hb => ?_⟩
      rintro rfl
      obtain rfl := mem_singleton.1 hb
      exact hnew ha
    · rw [h.inFlight, hlookup]
      split_ifs with heq
      · rw [heq, hstate]
        simp [CNodeState.init]
      · rfl
    · rw [hlookup] at hst
      split_ifs at hst with heq
      · obtain rfl := Option.some_inj.1 hst
        exact ⟨nodup_nil, rfl, rfl⟩
      · exact h.counted other st hst
    · rw [h.validated, countP_append]
      rfl
    · rw [h.preferred, countP_append]
      rfl

theorem Consistent.updatePreferredDownload (hstate : s.mapNodeState.lookup nodeid = some state)
    (fInbound fWhitelisted fOneShot fClient : Bool) :
    ∃ s', s.updatePreferredDownload nodeid fInbound fWhitelisted fOneShot fClient = .ok s' ∧
      s'.Consistent := by
  have hcounted := h.counted nodeid state hstate
  have hcounted' : CNodeState.Counted { state with
      fPreferredDownload := (!fInbound || fWhitelisted) && !fOneShot && !fClient } :=
    ⟨hcounted.nodup, hcounted.blocks, hcounted.validHeaders⟩
  rw [PeerLogic.updatePreferredDownload, hstate]
  refine ⟨_, rfl, h.replace hstate hcounted' (fun hash other it => ?_) ?_ rfl⟩
  · split_ifs with heq
    · rw [h.inFlight, heq, hstate]
      simp
    · rfl
  · exact (Int.sub_add_cancel _ _).symm

theorem Consistent.markBlockAsReceived (hash : uint256) :
    ∃ s' f, s.markBlockAsReceived hash = .ok (s', f) ∧ s'.Consistent ∧
      s'.mapBlocksInFlight.lookup hash = none ∧
      s'.mapNodeState.map Prod.fst = s.mapNodeState.map Prod.fst := by
  rw [PeerLogic.markBlockAsReceived]
  cases hqueued : s.mapBlocksInFlight.lookup hash with
  | none => exact ⟨s, false, rfl, h, hqueued, rfl⟩
  | some queued =>
    obtain ⟨nodeid, it⟩ := queued
    obtain ⟨state, hstate, hmem, hhash⟩ := (h.inFlight hash nodeid it).1 hqueued
    obtain ⟨hnodup, hblocks, hvalid⟩ := h.counted nodeid state hstate
    have hperm := perm_cons_erase hmem
    dsimp only
    rw [hstate]
    refine ⟨_, true, rfl, ?_, Finmap.lookup_erase _ _, keys_setAt⟩
    have hcount : state.nBlocksInFlightValidHeaders - it.fValidatedHeaders.toInt =
        (state.vBlocksInFlight.erase it).countP (·.fValidatedHeaders) := by
      rw [hvalid, hperm.countP_eq, countP_cons]
      cases it.fValidatedHeaders <;> simp
    have hcounted : CNodeState.Counted { state with
        vBlocksInFlight := state.vBlocksInFlight.erase it
        nBlocksInFlight := state.nBlocksInFlight - 1
        nBlocksInFlightValidHeaders :=
          state.nBlocksInFlightValidHeaders - it.fValidatedHeaders.toInt } := by
      refine ⟨hnodup.erase it, ?_, hcount⟩
      have hpos := length_pos_of_mem hmem
      rw [length_erase_of_mem hmem]
      change state.nBlocksInFlight - 1 = _
      omega
    refine h.replace hstate hcounted (fun hash' other it' => ?_) ?_
      (Int.sub_add_cancel _ _).symm
    · rw [Downloads.lookup_erase_eq]
      split_ifs with hh ho ho
      · subst hh ho
        refine iff_of_false nofun fun ⟨hmem', hhash'⟩ => ?_
        obtain ⟨hne, hmem'⟩ := hnodup.mem_erase_iff.1 hmem'
        have hagain := (h.inFlight _ _ it').2 ⟨state, hstate, hmem', hhash'⟩
        rw [hqueued] at hagain
        exact hne (Prod.ext_iff.1 (Option.some_inj.1 hagain)).2.symm
      · subst hh
        refine iff_of_false nofun fun hagain => ho ?_
        rw [hqueued] at hagain
        exact (Prod.ext_iff.1 (Option.some_inj.1 hagain)).1.symm
      · subst ho
        rw [h.inFlight, hstate]
        simp only [Option.some_inj, exists_eq_left', hnodup.mem_erase_iff]
        refine ⟨fun ⟨hm, hx⟩ => ⟨⟨?_, hm⟩, hx⟩, fun ⟨⟨_, hm⟩, hx⟩ => ⟨hm, hx⟩⟩
        rintro rfl
        exact hh (hx.symm.trans hhash)
      · rfl
    · rw [toInt_hasValidated hcounted, toInt_hasValidated ⟨hnodup, hblocks, hvalid⟩]
      dsimp only
      cases hv : it.fValidatedHeaders with
      | false => simp
      | true =>
        have hpos : 0 < state.vBlocksInFlight.countP (·.fValidatedHeaders) :=
          countP_pos_iff.2 ⟨it, hmem, hv⟩
        have hne : state.nBlocksInFlightValidHeaders ≠ 0 := by omega
        rw [if_neg hne]
        by_cases hzero : state.nBlocksInFlightValidHeaders - true.toInt = 0
        · rw [if_pos ⟨hzero, rfl⟩, if_pos hzero]
          omega
        · rw [if_neg fun h => hzero h.1, if_neg hzero]
          omega

theorem Consistent.append (hstate : s.mapNodeState.lookup nodeid = some state)
    (hnone : s.mapBlocksInFlight.lookup hash = none) (fPindex : Bool) :
    Consistent { s with
      mapNodeState := setAt nodeid { state with
        vBlocksInFlight := state.vBlocksInFlight ++ [⟨hash, fPindex⟩]
        nBlocksInFlight := state.nBlocksInFlight + 1
        nBlocksInFlightValidHeaders := state.nBlocksInFlightValidHeaders + fPindex.toInt }
        s.mapNodeState
      mapBlocksInFlight := s.mapBlocksInFlight.insert hash (nodeid, ⟨hash, fPindex⟩)
      nPeersWithValidatedDownloads :=
        if state.nBlocksInFlightValidHeaders + fPindex.toInt = 1 ∧ fPindex then
          s.nPeersWithValidatedDownloads + 1
        else s.nPeersWithValidatedDownloads } := by
  obtain ⟨hnodup, hblocks, hvalid⟩ := h.counted nodeid state hstate
  have hnew : ∀ it ∈ state.vBlocksInFlight, it.hash ≠ hash := by
    intro it hmem heq
    have hmap := (h.inFlight hash nodeid it).2 ⟨state, hstate, hmem, heq⟩
    rw [hnone] at hmap
    exact nomatch hmap
  have hcounted : CNodeState.Counted { state with
      vBlocksInFlight := state.vBlocksInFlight ++ [⟨hash, fPindex⟩]
      nBlocksInFlight := state.nBlocksInFlight + 1
      nBlocksInFlightValidHeaders := state.nBlocksInFlightValidHeaders + fPindex.toInt } := by
    refine ⟨?_, ?_, ?_⟩
    · rw [nodup_append]
      refine ⟨hnodup, nodup_singleton _, fun it hmem it' hmem' heq => ?_⟩
      rw [heq, mem_singleton.1 hmem'] at hmem
      exact hnew _ hmem rfl
    · rw [length_append, length_singleton]
      change state.nBlocksInFlight + 1 = _
      omega
    · rw [countP_append, countP_singleton]
      change state.nBlocksInFlightValidHeaders + fPindex.toInt = _
      cases fPindex <;> simp [hvalid]
  refine h.replace hstate hcounted (fun hash' other it => ?_) ?_ (Int.sub_add_cancel _ _).symm
  · rw [Downloads.lookup_insert_eq]
    split_ifs with hh ho ho
    · subst hh ho
      rw [Option.some_inj, Prod.mk.injEq, and_iff_right rfl]
      constructor
      · rintro rfl
        exact ⟨mem_append_right _ (mem_singleton_self _), rfl⟩
      · rintro ⟨hmem, hhash⟩
        rcases mem_append.1 hmem with hmem | hmem
        · exact absurd hhash (hnew it hmem)
        · exact (mem_singleton.1 hmem).symm
    · subst hh
      rw [hnone]
      refine iff_of_false (fun heq => ho ?_) nofun
      exact (Prod.ext_iff.1 (Option.some_inj.1 heq)).1.symm
    · subst ho
      rw [h.inFlight, hstate]
      simp only [Option.some_inj, exists_eq_left', mem_append, mem_singleton]
      refine ⟨fun ⟨hm, hx⟩ => ⟨.inl hm, hx⟩, fun ⟨hm, hx⟩ => ⟨hm.resolve_right ?_, hx⟩⟩
      rintro rfl
      exact hh hx.symm
    · rfl
  · rw [toInt_hasValidated hcounted, toInt_hasValidated ⟨hnodup, hblocks, hvalid⟩]
    dsimp only
    cases fPindex with
    | false => simp
    | true =>
      have hne : state.nBlocksInFlightValidHeaders + true.toInt ≠ 0 := by
        rw [Bool.toInt_true]
        omega
      rw [if_neg hne]
      by_cases hzero : state.nBlocksInFlightValidHeaders = 0
      · rw [if_pos ⟨by rw [hzero]; rfl, rfl⟩, if_pos hzero]
        omega
      · have hmore : state.nBlocksInFlightValidHeaders + true.toInt ≠ 1 := by
          rw [Bool.toInt_true]
          omega
        rw [if_neg fun h => hmore h.1, if_neg hzero]
        omega

theorem Consistent.markBlockAsInFlight
    (hnode : (s.mapNodeState.lookup nodeid).isSome) (fPindex fPit : Bool)
    (hpit : (s.mapBlocksInFlight.lookup hash).any (·.1 = nodeid) → fPit = true) :
    ∃ s' f, s.markBlockAsInFlight nodeid hash fPindex fPit = .ok (s', f) ∧ s'.Consistent := by
  rw [PeerLogic.markBlockAsInFlight, if_neg (by simpa using hnode)]
  split_ifs with hsame hp
  · exact ⟨s, false, rfl, h⟩
  · exact absurd (hpit hsame) hp
  · obtain ⟨s₁, f, hreceived, h₁, hnone, hkeys⟩ := h.markBlockAsReceived hash
    obtain ⟨state₀, hstate₀⟩ := Option.isSome_iff_exists.1 hnode
    obtain ⟨state, hstate⟩ := exists_lookup (hkeys ▸ mem_keys_of_lookup hstate₀)
    rw [hreceived, ok_bind]
    dsimp only
    rw [hstate]
    exact ⟨_, true, rfl, h₁.append hstate hnone fPindex⟩

theorem Consistent.finalizeNode (hstate : s.mapNodeState.lookup nodeid = some state) :
    ∃ s', s.finalizeNode nodeid = .ok s' ∧ s'.Consistent := by
  have hvalidated : s.nPeersWithValidatedDownloads -
      (decide (state.nBlocksInFlightValidHeaders ≠ 0)).toInt =
        (eraseAt nodeid s.mapNodeState).countP (·.2.hasValidated) := by
    have hcount := countP_eraseAt (·.2.hasValidated) hstate
    have hself := toInt_hasValidated (h.counted nodeid state hstate)
    rw [count_follows (hcount.trans (Nat.add_zero _).symm : _ = _ + false.toNat), h.validated,
      hself]
    by_cases hzero : state.nBlocksInFlightValidHeaders = 0
    · simp [hzero]
    · simp [hzero]
  have hpreferred : s.nPreferredDownload - state.fPreferredDownload.toInt =
      (eraseAt nodeid s.mapNodeState).countP (·.2.fPreferredDownload) := by
    have hcount := countP_eraseAt (·.2.fPreferredDownload) hstate
    rw [count_follows (hcount.trans (Nat.add_zero _).symm : _ = _ + false.toNat), h.preferred]
    exact (Int.add_zero _).symm
  have hflight : ∀ hash other it,
      ((state.vBlocksInFlight.map (·.hash)).foldl (fun m hash => m.erase hash)
        s.mapBlocksInFlight).lookup hash = some (other, it) ↔
      ∃ st, (eraseAt nodeid s.mapNodeState).lookup other = some st ∧
        it ∈ st.vBlocksInFlight ∧ it.hash = hash := by
    intro hash other it
    rw [Downloads.lookup_foldl_erase, lookup_eraseAt h.keys]
    split_ifs with hmem ho ho
    · simp
    · refine iff_of_false (by simp) fun hother => ho ?_
      have hother := (h.inFlight hash other it).2 hother
      obtain ⟨own, hown, hhash⟩ := mem_map.1 hmem
      have hmine := (h.inFlight hash nodeid own).2 ⟨state, hstate, hown, hhash⟩
      rw [hother] at hmine
      exact (Prod.ext_iff.1 (Option.some_inj.1 hmine)).1
    · refine iff_of_false (fun hmap => hmem ?_) (by simp)
      obtain ⟨st, hst, hit, hhash⟩ := (h.inFlight hash other it).1 hmap
      rw [ho, hstate, Option.some_inj] at hst
      subst hst
      exact mem_map.2 ⟨it, hit, hhash⟩
    · exact h.inFlight hash other it
  have hconsistent : Consistent ⟨eraseAt nodeid s.mapNodeState, _, _, _⟩ :=
    ⟨h.keys.sublist keys_eraseAt_sublist, hflight, fun other st hst => by
      rw [lookup_eraseAt h.keys] at hst
      split_ifs at hst
      exact h.counted other st hst, hvalidated, hpreferred⟩
  rw [PeerLogic.finalizeNode, hstate]
  dsimp only
  rw [assertThat_of_true (by omega), ok_bind]
  split_ifs with hlast
  · have hempty : ((state.vBlocksInFlight.map (·.hash)).foldl (fun m hash => m.erase hash)
        s.mapBlocksInFlight).keys = ∅ := by
      refine Finset.eq_empty_of_forall_notMem fun hash hmem => ?_
      obtain ⟨⟨other, it⟩, hmap⟩ := Finmap.mem_iff.1 (Finmap.mem_keys.1 hmem)
      obtain ⟨st, hst, _⟩ := (hflight hash other it).1 hmap
      rw [hlast] at hst
      cases hst
    rw [hlast, countP_nil, Nat.cast_zero] at hvalidated hpreferred
    rw [assertThat_of_true hempty, ok_bind, assertThat_of_true hpreferred, ok_bind,
      assertThat_of_true hvalidated, ok_bind]
    exact ⟨_, rfl, hconsistent⟩
  · exact ⟨_, rfl, hconsistent⟩

theorem Consistent.step (hmeant : s.Meant event) : ∃ s', s.step event = .ok s' ∧ s'.Consistent := by
  cases event with
  | initializeNode nodeid => exact ⟨_, rfl, h.initializeNode nodeid⟩
  | updatePreferredDownload nodeid fInbound fWhitelisted fOneShot fClient =>
    obtain ⟨state, hstate⟩ := Option.isSome_iff_exists.1 hmeant
    exact h.updatePreferredDownload hstate fInbound fWhitelisted fOneShot fClient
  | markBlockAsInFlight nodeid hash fPindex fPit =>
    obtain ⟨s', f, hcall, h'⟩ := h.markBlockAsInFlight hmeant.1 fPindex fPit hmeant.2
    refine ⟨s', ?_, h'⟩
    rw [PeerLogic.step, hcall]
    rfl
  | markBlockAsReceived hash =>
    obtain ⟨s', f, hcall, h', _⟩ := h.markBlockAsReceived hash
    refine ⟨s', ?_, h'⟩
    rw [PeerLogic.step, hcall]
    rfl
  | finalizeNode nodeid =>
    obtain ⟨state, hstate⟩ := Option.isSome_iff_exists.1 hmeant
    exact h.finalizeNode hstate

end

theorem step_of_not_meant (hmeant : ¬ s.Meant event) :
    s.step event = .error .nullDereference ∨
      s.step event = .error (.assertFailed "state != NULL") := by
  cases event with
  | initializeNode nodeid => exact absurd trivial hmeant
  | updatePreferredDownload nodeid fInbound fWhitelisted fOneShot fClient =>
    rw [Meant, Option.not_isSome_iff_eq_none] at hmeant
    rw [PeerLogic.step, PeerLogic.updatePreferredDownload, hmeant]
    exact .inl rfl
  | markBlockAsInFlight nodeid hash fPindex fPit =>
    rw [PeerLogic.step, PeerLogic.markBlockAsInFlight]
    split_ifs with hnode hsame hpit
    · exact .inr rfl
    · exact absurd ⟨by simpa using hnode, fun _ => hpit⟩ hmeant
    · exact .inl rfl
    · exact absurd ⟨by simpa using hnode, fun h => absurd h hsame⟩ hmeant
  | markBlockAsReceived hash => exact absurd trivial hmeant
  | finalizeNode nodeid =>
    rw [Meant, Option.not_isSome_iff_eq_none] at hmeant
    rw [PeerLogic.step, PeerLogic.finalizeNode, hmeant]
    exact .inl rfl

/-- After any sequence of calls the map of blocks in flight and all counters are what they stand
for. A sequence stops short only at a call for a node that is not there or without the `pit` it
needs, so that no assertion of `FinalizeNode` fails. -/
theorem run_consistent (events : List PeerEvent) :
    (∀ s, events.foldlM step init = .ok s → s.Consistent) ∧
    (∀ f, events.foldlM step init = .error f →
      f = .nullDereference ∨ f = .assertFailed "state != NULL") ∧
    (AllMeetM step Meant init events → ∃ s, events.foldlM step init = .ok s) := by
  have hends : Ends (fun f => f = .nullDereference ∨ f = .assertFailed "state != NULL")
      Consistent (events.foldlM step init) := by
    refine Ends.foldlM (fun s event h => ?_) consistent_init events
    by_cases hmeant : s.Meant event
    · obtain ⟨s', hcall, h'⟩ := h.step hmeant
      rw [hcall]
      exact h'
    · rcases step_of_not_meant hmeant with hcall | hcall
      · rw [hcall]
        exact .inl rfl
      · rw [hcall]
        exact .inr rfl
  refine ⟨fun s hrun => hends.of_eq_ok hrun, fun f hrun => ?_, fun hmeant => ?_⟩
  · rw [hrun] at hends
    exact hends
  · obtain ⟨s, hrun, _⟩ :=
      foldlM_of_allMeetM (fun s event hmeant h => Consistent.step h hmeant) consistent_init hmeant
    exact ⟨s, hrun⟩

/-- A block goes in flight from the only node, which then leaves. -/
theorem run_consistent_oneNode : ∃ s, [.initializeNode 0,
    .updatePreferredDownload 0 false false false false, .markBlockAsInFlight 0 7 true false,
    .finalizeNode 0].foldlM step init = .ok s := by
  refine (run_consistent _).2.2 ⟨trivial, fun s hs => ?_⟩
  obtain rfl := Except.ok.inj hs
  refine ⟨rfl, fun s hs => ?_⟩
  obtain rfl := Except.ok.inj hs
  refine ⟨⟨rfl, fun h => absurd h (by decide)⟩, fun s hs => ?_⟩
  obtain rfl := Except.ok.inj hs
  exact ⟨rfl, fun s hs => trivial⟩

end PeerLogic

end InFlight

end Coinyecoin
