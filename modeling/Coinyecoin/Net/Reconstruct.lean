import Coinyecoin.Net.InitData

/-!
# Reconstructing a block

A block that is announced as a compact block and completed with the transactions
that are missing comes out as it was, if a short id stands for one transaction
only. What the scans of `InitData` put into a slot is then the transaction of the
block at that position.
-/

namespace Coinyecoin

open Foundation ReadStatus PartiallyDownloadedBlock List

variable {txn_available : List CTransactionRef} {shorttxids : ShortIds}
  {getShortID : uint256 → UInt64} {coinbase : CTransaction}

namespace PartiallyDownloadedBlock

def missing (p : PartiallyDownloadedBlock) (vtx : List CTransaction) : List CTransaction :=
  (vtx.zipIdx.filter fun entry => match p.isTxAvailable entry.2 with
    | .ok false => true
    | _ => false).map Prod.fst

structure Agrees (vtx : List CTransaction) (txn_available : List CTransactionRef) : Prop where
  length : txn_available.length = vtx.length
  agree : ∀ (n : ℕ) (tx : CTransaction), txn_available[n]? = some (some tx) → vtx[n]? = some tx

section

variable {env : RelayEnv} {vtx : List CTransaction}

theorem Agrees.set (h : Agrees vtx txn_available) (n : ℕ)
    {ref : CTransactionRef} (href : ∀ tx, ref = some tx → vtx[n]? = some tx) :
    Agrees vtx (txn_available.set n ref) where
  length := by rw [length_set, h.length]
  agree k tx hk := by
    by_cases hne : n = k
    · subst hne
      rw [getElem?_set_self'] at hk
      obtain ⟨_, -, hk⟩ := Option.map_eq_some_iff.1 hk
      exact href tx hk
    · rw [getElem?_set_ne hne] at hk
      exact h.agree k tx hk

namespace Scan

variable {s s' : Scan} {n : ℕ} {ref : CTransactionRef}

section

variable (h : Agrees vtx s.txn_available)
include h

theorem agrees_place
    (href : ∀ tx, ref = some tx → vtx[n]? = some tx) (hplace : s.place n ref = .ok s') :
    Agrees vtx s'.txn_available := by
  obtain ⟨available, havailable, hplace⟩ := bind_eq_ok.1 hplace
  obtain ⟨have_txn, -, hplace⟩ := bind_eq_ok.1 hplace
  obtain rfl := Except.ok.inj hplace
  rw [vectorSet] at havailable
  split_ifs at havailable
  obtain rfl := Except.ok.inj havailable
  exact h.set n href

theorem agrees_reset (hreset : s.reset n = .ok s') : Agrees vtx s'.txn_available := by
  obtain ⟨available, havailable, hreset⟩ := bind_eq_ok.1 hreset
  obtain rfl := Except.ok.inj hreset
  rw [vectorSet] at havailable
  split_ifs at havailable
  obtain rfl := Except.ok.inj havailable
  exact h.set n fun tx hnone => by cases hnone

theorem agrees_visitPool {tx : CTransaction}
    (htx : vtx[n]? = some tx) (hvisit : s.visitPool n tx = .ok s') :
    Agrees vtx s'.txn_available := by
  obtain ⟨tried, -, hvisit⟩ := bind_eq_ok.1 hvisit
  split_ifs at hvisit
  · exact agrees_place h (fun _ heq => Option.some_inj.1 heq ▸ htx) hvisit
  · obtain ⟨found, -, hvisit⟩ := bind_eq_ok.1 hvisit
    cases found with
    | none =>
      obtain rfl := Except.ok.inj hvisit
      exact h
    | some found => exact agrees_reset h hvisit

theorem agrees_visitExtra
    (href : ∀ tx, ref = some tx → vtx[n]? = some tx) (hvisit : s.visitExtra env n ref = .ok s') :
    Agrees vtx s'.txn_available := by
  obtain ⟨tried, -, hvisit⟩ := bind_eq_ok.1 hvisit
  split_ifs at hvisit
  · obtain ⟨s₁, hplace, hvisit⟩ := bind_eq_ok.1 hvisit
    have hplaced : Agrees vtx s₁.txn_available := agrees_place h href hplace
    obtain rfl := Except.ok.inj hvisit
    exact hplaced
  · obtain ⟨found, -, hvisit⟩ := bind_eq_ok.1 hvisit
    cases found with
    | none =>
      obtain rfl := Except.ok.inj hvisit
      exact h
    | some found =>
      cases ref with
      | none => exact nomatch hvisit
      | some extra =>
        simp only at hvisit
        split_ifs at hvisit
        · obtain ⟨s₁, hreset, hvisit⟩ := bind_eq_ok.1 hvisit
          have hemptied : Agrees vtx s₁.txn_available := agrees_reset h hreset
          obtain rfl := Except.ok.inj hvisit
          exact hemptied
        · obtain rfl := Except.ok.inj hvisit
          exact h

end

theorem agrees_scan {β : Type} {visit : Scan → ℕ → β → Except Fault Scan} {l : List (uint256 × β)}
    (hvisit : ∀ s s' n, ∀ entry ∈ l, shorttxids.lookup (getShortID entry.1) = some n →
      Agrees vtx s.txn_available → visit s n.toNat entry.2 = .ok s' → Agrees vtx s'.txn_available)
    (h : Agrees vtx s.txn_available) (hscan : s.scan shorttxids getShortID visit l = .ok s') :
    Agrees vtx s'.txn_available := by
  induction l generalizing s with
  | nil =>
    obtain rfl := Except.ok.inj hscan
    exact h
  | cons entry l ih =>
    obtain ⟨hash, b⟩ := entry
    have hrest : ∀ s₁ : Scan, Agrees vtx s₁.txn_available →
        (if s₁.mempool_count == UInt64.ofNat shorttxids.keys.card then Except.ok s₁
          else s₁.scan shorttxids getShortID visit l) = .ok s' →
        Agrees vtx s'.txn_available := by
      intro s₁ h₁ hscan
      split_ifs at hscan
      · obtain rfl := Except.ok.inj hscan
        exact h₁
      · exact ih (fun s s' n entry hentry =>
          hvisit s s' n entry (mem_cons_of_mem _ hentry)) h₁ hscan
    rw [Scan.scan] at hscan
    cases hlookup : shorttxids.lookup (getShortID hash) with
    | none =>
      rw [hlookup] at hscan
      exact hrest s h hscan
    | some n =>
      rw [hlookup] at hscan
      obtain ⟨s₁, hfirst, hscan⟩ := bind_eq_ok.1 hscan
      exact hrest s₁ (hvisit s s₁ n (hash, b) mem_cons_self hlookup h hfirst) hscan

end Scan

theorem agrees_findTransactions {p p' : PartiallyDownloadedBlock}
    {vTxHashes : List (uint256 × CTransaction)}
    {extra_txn : List (uint256 × CTransactionRef)} (h : Agrees vtx p.txn_available)
    (hpool : ∀ n, ∀ entry ∈ vTxHashes, shorttxids.lookup (getShortID entry.1) = some n →
      vtx[n.toNat]? = some entry.2)
    (hextra : ∀ n tx, ∀ entry ∈ extra_txn, shorttxids.lookup (getShortID entry.1) = some n →
      entry.2 = some tx → vtx[n.toNat]? = some tx)
    (hfind : findTransactions env p shorttxids getShortID vTxHashes extra_txn = .ok p') :
    Agrees vtx p'.txn_available ∧ p'.header = p.header := by
  obtain ⟨s₁, hscan₁, hfind⟩ := bind_eq_ok.1 hfind
  obtain ⟨s₂, hscan₂, hfind⟩ := bind_eq_ok.1 hfind
  have h₁ : Agrees vtx s₁.txn_available := Scan.agrees_scan
    (fun s s' n entry hentry hlookup hs =>
      Scan.agrees_visitPool hs (hpool n entry hentry hlookup)) h hscan₁
  have h₂ : Agrees vtx s₂.txn_available := Scan.agrees_scan
    (fun s s' n entry hentry hlookup hs =>
      Scan.agrees_visitExtra hs fun tx htx => hextra n tx entry hentry hlookup htx) h₁ hscan₂
  obtain rfl := Except.ok.inj hfind
  exact ⟨h₂, rfl⟩

def atEmpty : List CTransactionRef → List CTransaction → List CTransaction
  | none :: txn_available, tx :: vtx => tx :: atEmpty txn_available vtx
  | some _ :: txn_available, _ :: vtx => atEmpty txn_available vtx
  | _, _ => []

theorem fill_atEmpty (h : Agrees vtx txn_available) :
    fill txn_available (atEmpty txn_available vtx) = .ok (vtx, []) := by
  induction vtx generalizing txn_available with
  | nil =>
    obtain rfl := eq_nil_of_length_eq_zero h.length
    rfl
  | cons tx vtx ih =>
    obtain ⟨ref, rest, rfl⟩ := exists_cons_of_length_eq_add_one h.length
    have hrest : Agrees vtx rest := ⟨Nat.succ_injective h.length, fun n => h.agree (n + 1)⟩
    cases ref with
    | none => simp only [atEmpty, fill, ih hrest]
    | some found =>
      obtain rfl : tx = found := Option.some_inj.1 (h.agree 0 found rfl)
      simp only [atEmpty, fill, ih hrest]

variable {p : PartiallyDownloadedBlock}

section

variable (hheader : p.header.isNull = false)
include hheader

theorem isTxAvailable_eq {n : ℕ} {ref : CTransactionRef} (hn : p.txn_available[n]? = some ref) :
    p.isTxAvailable n = .ok ref.isSome := by
  have hlt := (List.getElem?_eq_some_iff.1 hn).1
  rw [isTxAvailable, assertThat_of_true (by rw [hheader]; exact Bool.false_ne_true), ok_bind,
    assertThat_of_true hlt, ok_bind, vectorAt_eq_ok.2 hn]
  rfl

theorem missing_eq (hlength : p.txn_available.length = vtx.length) :
    p.missing vtx = atEmpty p.txn_available vtx := by
  -- from position `k` on
  suffices h : ∀ k rest, p.txn_available.drop k = rest → rest.length = vtx.length →
      ((vtx.zipIdx k).filter fun entry => match p.isTxAvailable entry.2 with
        | .ok false => true
        | _ => false).map Prod.fst = atEmpty rest vtx from h 0 _ drop_zero hlength
  clear hlength
  intro k rest hrest hlength
  induction vtx generalizing k rest with
  | nil =>
    obtain rfl := eq_nil_of_length_eq_zero hlength
    rfl
  | cons tx vtx ih =>
    obtain ⟨ref, rest, rfl⟩ := exists_cons_of_length_eq_add_one hlength
    have hk : p.txn_available[k]? = some ref := by
      rw [← head?_drop, hrest, head?_cons]
    have htail := ih (k + 1) rest (by rw [← drop_drop, hrest]; rfl)
      (Nat.succ_injective hlength)
    rw [zipIdx_cons, filter_cons]
    simp only [isTxAvailable_eq hheader hk]
    cases ref with
    | none =>
      rw [atEmpty, ← htail]
      rfl
    | some found => exact htail

theorem fillBlock_of_fill {vtx_missing : List CTransaction}
    (hfill : fill p.txn_available vtx_missing = .ok (vtx, [])) :
    ∃ status, status ≠ READ_STATUS_INVALID ∧ fillBlock env p vtx_missing = .ok (status,
      { p with header := CBlockHeader.null, txn_available := [] }, some ⟨p.header, vtx⟩) := by
  rw [fillBlock, assertThat_of_true (by rw [hheader]; exact Bool.false_ne_true), ok_bind, hfill]
  simp only [isEmpty_nil, Bool.not_true, if_neg Bool.false_ne_true]
  cases env.checkBlock ⟨p.header, vtx⟩ with
  | ok u => exact ⟨READ_STATUS_OK, by decide, rfl⟩
  | error reject =>
    refine ⟨_, ?_, rfl⟩
    split_ifs <;> decide

end

end

end PartiallyDownloadedBlock

namespace CBlockHeaderAndShortTxIDs

/-- The short ids of the transactions of a block, the pool and the extra transactions, with these
transactions. -/
def shortIdsOf (env : RelayEnv) (cmpctblock : CBlockHeaderAndShortTxIDs) (fUseWTXID : Bool)
    (block : CWholeBlock) (vTxHashes : List (uint256 × CTransaction))
    (extra_txn : List (uint256 × CTransactionRef)) : List (UInt64 × CTransaction) :=
  block.vtx.map (fun tx => (cmpctblock.getShortID env
      (if fUseWTXID then env.getWitnessHash tx else env.getHash tx), tx)) ++
    vTxHashes.map (fun entry => (cmpctblock.getShortID env entry.1, entry.2)) ++
    extra_txn.filterMap fun entry => entry.2.map fun tx => (cmpctblock.getShortID env entry.1, tx)

variable {env : RelayEnv} {cmpctblock : CBlockHeaderAndShortTxIDs} {nonce : UInt64}
  {block : CWholeBlock} {fUseWTXID : Bool} {vTxHashes : List (uint256 × CTransaction)}
  {extra_txn : List (uint256 × CTransactionRef)}

theorem ofBlock_ok (h : ofBlock env nonce block fUseWTXID = .ok cmpctblock) :
    ∃ coinbase vtx, block.vtx = coinbase :: vtx ∧ cmpctblock.header = block.header ∧
      cmpctblock.prefilledtxn = [⟨0, coinbase⟩] ∧
      cmpctblock.shorttxids = vtx.map fun tx => cmpctblock.getShortID env
        (if fUseWTXID then env.getWitnessHash tx else env.getHash tx) := by
  rw [ofBlock] at h
  cases hvtx : block.vtx with
  | nil =>
    rw [hvtx] at h
    exact nomatch h
  | cons coinbase vtx =>
    rw [hvtx] at h
    obtain rfl := Except.ok.inj h
    exact ⟨coinbase, vtx, rfl, rfl, rfl, rfl⟩

theorem shortPlaces_eq (hprefilled : cmpctblock.prefilledtxn = [⟨0, coinbase⟩]) :
    cmpctblock.shortPlaces = List.range' 1 cmpctblock.shorttxids.length := by
  rw [shortPlaces, blockTxCount, prefilledPlaces, hprefilled, length_singleton,
    range_eq_range', range'_succ, filter_cons, if_neg (by simp [placesFrom])]
  refine filter_eq_self.2 fun n hn => decide_eq_true fun hmem => ?_
  have hpos := (mem_range'_1.1 hn).1
  obtain rfl : n = 0 := mem_singleton.1 hmem
  omega

theorem getElem?_of_lookup (hlength : block.vtx.length ≤ 16000)
    (hcmpctblock : ofBlock env nonce block fUseWTXID = .ok cmpctblock)
    (hwell : cmpctblock.WellPrefilled) (hnodup : cmpctblock.shorttxids.Nodup) {id : UInt64}
    {n : UInt16} (hlookup : (insertIds ∅ (cmpctblock.shorttxids.zip cmpctblock.shortPlaces)).lookup
      id = some n) :
    ∃ tx, block.vtx[n.toNat]? = some tx ∧ id = cmpctblock.getShortID env
      (if fUseWTXID then env.getWitnessHash tx else env.getHash tx) := by
  obtain ⟨coinbase, vtx, hvtx, -, hprefilled, hids⟩ := ofBlock_ok hcmpctblock
  have hcount : cmpctblock.blockTxCount ≤ 65536 := by
    rw [hvtx, length_cons] at hlength
    rw [blockTxCount, hprefilled, hids, length_map, length_singleton]
    omega
  have haddr := addresses hwell hnodup hcount
  have hmem : id ∈ (cmpctblock.shorttxids.zip cmpctblock.shortPlaces).map Prod.fst := by
    by_contra hnot
    rw [haddr.other id hnot] at hlookup
    cases hlookup
  obtain ⟨e, he, rfl⟩ := mem_map.1 hmem
  obtain ⟨n', hfound, hn'⟩ := haddr.found e he
  rw [hfound, Option.some_inj] at hlookup
  rw [← hlookup, hn']
  obtain ⟨i, hi⟩ := mem_iff_getElem?.1 he
  rw [getElem?_zip_eq_some, shortPlaces_eq hprefilled, hids, getElem?_map] at hi
  obtain ⟨hid, hplace⟩ := hi
  obtain ⟨tx, htx, hid⟩ := Option.map_eq_some_iff.1 hid
  obtain ⟨_, hplace⟩ := List.getElem?_eq_some_iff.1 hplace
  rw [getElem_range'] at hplace
  refine ⟨tx, ?_, hid.symm⟩
  rw [hvtx, ← hplace, Nat.one_mul, Nat.add_comm, getElem?_cons_succ]
  exact htx

theorem agrees_layOut (hwell : cmpctblock.WellPrefilled)
    (hprefilled : cmpctblock.prefilledtxn = [⟨0, coinbase⟩]) {fuel : ℕ}
    {laid : PartiallyDownloadedBlock} {m : ShortIds}
    (hlayOut : layOut env fuel init cmpctblock = .ok (READ_STATUS_OK, laid, m)) :
    (List.replicate cmpctblock.blockTxCount none).set 0 (some coinbase) = laid.txn_available := by
  rw [WellPrefilled, hprefilled] at hwell
  have hpos : 0 < (List.replicate cmpctblock.blockTxCount (none : CTransactionRef)).length := by
    rw [length_replicate, blockTxCount, hprefilled]
    exact Nat.succ_pos _
  have hprefill : prefill cmpctblock.shorttxids.length 0 (-1) cmpctblock.prefilledtxn
      (List.replicate cmpctblock.blockTxCount none) = .ok (READ_STATUS_OK,
        (List.replicate cmpctblock.blockTxCount none).set 0 (some coinbase)) := by
    rw [hprefilled, prefill, if_neg (by rw [hwell.1]; exact Bool.false_ne_true)]
    change (if (0 : ℤ) > 65535 then _ else if (0 : ℕ) > _ then _ else _) = _
    rw [if_neg (by decide), if_neg (Nat.not_lt_zero _)]
    exact bind_eq_ok.2 ⟨_, vectorSet_of_lt hpos _, rfl⟩
  rw [layOut, hprefill] at hlayOut
  obtain ⟨filled, hfilled, hlayOut⟩ := bind_eq_ok.1 hlayOut
  obtain rfl := Except.ok.inj (orStop_eq_ok.1 hfilled)
  obtain ⟨result, -, hresult⟩ := bind_eq_ok.1 hlayOut
  rw [← (Prod.mk.inj (Prod.mk.inj (Except.ok.inj hresult)).2).1]

/-- The compact block of a block, completed with what is missing, is that block. -/
theorem fillBlock_eq_block (hlength : block.vtx.length ≤ 16000)
    (hcmpctblock : ofBlock env nonce block fUseWTXID = .ok cmpctblock)
    (hinjective : ∀ a ∈ shortIdsOf env cmpctblock fUseWTXID block vTxHashes extra_txn,
      ∀ b ∈ shortIdsOf env cmpctblock fUseWTXID block vTxHashes extra_txn,
        a.1 = b.1 → a.2 = b.2)
    {fuel : ℕ} {p : PartiallyDownloadedBlock}
    (hinit : initData env fuel init cmpctblock vTxHashes extra_txn = .ok (READ_STATUS_OK, p)) :
    ∃ status p', fillBlock env p (p.missing block.vtx) = .ok (status, p', some block) ∧
      status ≠ READ_STATUS_INVALID := by
  obtain ⟨coinbase, vtx, hvtx, hheader, hprefilled, hids⟩ := ofBlock_ok hcmpctblock
  have hfew : cmpctblock.prefilledtxn.length < 65536 := by
    rw [hprefilled, length_singleton]
    decide
  obtain ⟨hnull, hwell, hnodup, laid, hlaid, hlayOut, hfind⟩ := initData_ok hfew hinit
  -- a transaction that is looked up is the one of the block at its position
  have hlookup : ∀ n id tx, (id, tx) ∈ shortIdsOf env cmpctblock fUseWTXID block vTxHashes
      extra_txn → (insertIds ∅ (cmpctblock.shorttxids.zip cmpctblock.shortPlaces)).lookup id =
        some n → block.vtx[n.toNat]? = some tx := by
    intro n id tx hmem hn
    obtain ⟨tx', htx', hid⟩ := getElem?_of_lookup hlength hcmpctblock hwell hnodup hn
    have hmem' : (id, tx') ∈ shortIdsOf env cmpctblock fUseWTXID block vTxHashes extra_txn := by
      refine mem_append_left _ (mem_append_left _ (mem_map.2 ⟨tx', ?_, ?_⟩))
      · exact mem_of_getElem? htx'
      · rw [hid]
    have hsame : tx = tx' := hinjective (id, tx) hmem (id, tx') hmem' rfl
    rw [htx', hsame]
  have hagrees : Agrees block.vtx laid.txn_available := by
    have hlen : block.vtx.length = cmpctblock.blockTxCount := by
      rw [blockTxCount, hprefilled, hids, hvtx, length_map, length_cons, length_singleton]
    rw [← agrees_layOut hwell hprefilled hlayOut]
    refine Agrees.set ⟨by rw [length_replicate, hlen], fun n tx hn => ?_⟩ 0 fun tx htx => ?_
    · cases eq_of_mem_replicate (mem_of_getElem? hn)
    · rw [hvtx, ← htx]
      rfl
  obtain ⟨hagrees', hheader'⟩ := agrees_findTransactions hagrees
    (fun n entry hentry hn => hlookup n _ entry.2 (mem_append_left _
      (mem_append_right _ (mem_map_of_mem hentry))) hn)
    (fun n tx entry hentry hn htx => hlookup n _ tx (mem_append_right _
      (mem_filterMap.2 ⟨entry, hentry, by rw [htx]; rfl⟩)) hn) hfind
  have hset : p.header.isNull = false := by rw [hheader', hlaid, hnull]
  have hfill := fill_atEmpty hagrees'
  rw [← missing_eq hset hagrees'.length] at hfill
  obtain ⟨status, hstatus, hblock⟩ := @fillBlock_of_fill env _ _ hset _ hfill
  rw [hheader', hlaid, hheader] at hblock
  exact ⟨status, _, hblock, hstatus⟩

def lockTimeEnv : RelayEnv where
  getHash tx := BitVec.ofNat 256 tx.nLockTime.toNat
  getWitnessHash tx := BitVec.ofNat 256 tx.nLockTime.toNat
  sipHash _ _ hash := UInt64.ofNat hash.toNat
  bucketSize _ _ _ := 1
  checkBlock _ := .ok ()

def lockTimeTx (nLockTime : UInt32) : CTransaction := ⟨1, [⟨⟨0, 0⟩, [], 0, []⟩], [], nLockTime⟩

def sampleBlock : CWholeBlock :=
  ⟨⟨⟨0, 0, 0, 0, 1, 0⟩, none⟩, [lockTimeTx 0, lockTimeTx 1, lockTimeTx 2]⟩

/-- One of three transactions is in the pool and one has to be asked for. -/
theorem fillBlock_eq_block_sample : ∃ status p',
    fillBlock lockTimeEnv ⟨sampleBlock.header, [some (lockTimeTx 0), none, some (lockTimeTx 2)],
      1, 1, 0⟩ [lockTimeTx 1] = .ok (status, p', some sampleBlock) ∧
      status ≠ READ_STATUS_INVALID :=
  @fillBlock_eq_block lockTimeEnv ⟨sampleBlock.header, 0, [1, 2], [⟨0, lockTimeTx 0⟩]⟩ 0 sampleBlock
    true [(2, lockTimeTx 2)] [] (by decide) rfl (by decide) 4
    ⟨sampleBlock.header, [some (lockTimeTx 0), none, some (lockTimeTx 2)], 1, 1, 0⟩ (by rfl)

end CBlockHeaderAndShortTxIDs

end Coinyecoin
