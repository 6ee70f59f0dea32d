import Coinyecoin.Arith.Compact
import Coinyecoin.AuxPow.Format
import Coinyecoin.Foundation.Runs
import Coinyecoin.Mining.Template

/-!
# Blocks for merged mining

`getauxblock` hands out the hash of a block to be mined with another chain, and
takes the proof of work for it back. It keeps the blocks it created in static
variables: a map from hashes to pointers, the templates that own the blocks, and
what it needs to decide whether the last block still is up to date.

The templates lie on a heap, so that a pointer can be null or point to a template
that was freed. The checks that come before the critical section, and what
`ProcessNewBlock` makes of a submitted block, are left out; the chain tip, the
memory pool and the clock move on their own, and other callers of
`IncrementExtraNonce` share its static variable.

`returned` records the hashes handed out since a call last saw a changed tip.
-/

namespace Coinyecoin

namespace Mining

open Foundation List Function

variable {address : ℕ}

def setAuxpowFlag (header : CPureBlockHeader) : CPureBlockHeader :=
  { header with nVersion := header.nVersion ||| CPureBlockHeader.VERSION_AUXPOW }

structure AuxBlock where
  tmpl : CBlockTemplate
  auxpow : Option CAuxPow

def AuxBlock.setAuxpow (block : AuxBlock) (auxpow : CAuxPow) : AuxBlock where
  tmpl := { block.tmpl with header := setAuxpowFlag block.tmpl.header }
  auxpow := some auxpow

/-- The node as far as `getauxblock` sees it, its static variables, and the record
of what it has returned. A block index is given by the hash of its block. -/
structure AuxNode where
  tip : uint256
  nTransactionsUpdated : UInt32
  nNow : UInt64
  hashPrevBlock : uint256
  heap : ℕ → Option AuxBlock
  nextAddress : ℕ
  mapNewBlock : List (uint256 × ℕ)
  vNewBlockTemplate : List ℕ
  nTransactionsUpdatedLast : UInt32
  pindexPrev : Option uint256
  nStart : UInt64
  pblock : Option ℕ
  nExtraNonce : UInt32
  returned : List uint256

/-- What `CreateNewBlock` comes back with. A coinbase has an output. -/
inductive NewBlock where
  | thrown (msg : String)
  | null
  | built (tmpl : CBlockTemplate) (hvout : tmpl.coinbase.vout ≠ [])

structure AuxWork where
  hash : uint256
  chainid : ℤ
  previousblockhash : uint256
  coinbasevalue : Int64
  bits : UInt32
  height : Int32
  target : uint256
deriving DecidableEq

structure AuxEnv where
  hash : Bytes → uint256
  hashPair : uint256 → uint256 → uint256
  blockHeight : uint256 → Int32

/-- The calls, and what happens between them. A submitted proof of work may fail to
be read. -/
inductive AuxEvent where
  | changeTip (hash : uint256)
  | updateMempool (nTransactionsUpdated : UInt32)
  | setTime (nNow : UInt64)
  | incrementElsewhere (hashPrevBlock : uint256)
  | create (newBlock : NewBlock)
  | submit (hash : uint256) (auxpow : Except String CAuxPow)

section

variable (env : AuxEnv)

def AuxBlock.getHash (block : AuxBlock) : uint256 := block.tmpl.header.getHash env.hash

def AuxNode.deref (s : AuxNode) (p : Option ℕ) : Except Fault AuxBlock :=
  match p with
  | none => .error .nullDereference
  | some address =>
    match s.heap address with
    | some block => .ok block
    | none => .error .danglingPointer

/-- Forgets the old blocks and frees their templates. -/
def AuxNode.clear (s : AuxNode) : AuxNode :=
  { s with
    heap := fun address => if address ∈ s.vNewBlockTemplate then none else s.heap address
    mapNewBlock := []
    vNewBlockTemplate := []
    pblock := none
    returned := [] }

/-- Whether the memory pool has changed and a minute has passed. The difference is
one of unsigned numbers. -/
def AuxNode.refreshDue (s : AuxNode) : Bool :=
  s.nTransactionsUpdated != s.nTransactionsUpdatedLast && s.nNow - s.nStart > 60

/-- The block becomes the current one, with the given values of the static variables
of `IncrementExtraNonce`. -/
def AuxNode.push (s : AuxNode) (hashPrevBlock : uint256) (nExtraNonce : UInt32)
    (block : AuxBlock) : AuxNode :=
  { s with
    hashPrevBlock := hashPrevBlock
    heap := Function.update s.heap s.nextAddress (some block)
    nextAddress := s.nextAddress + 1
    mapNewBlock := (block.getHash env, s.nextAddress) :: s.mapNewBlock
    vNewBlockTemplate := s.vNewBlockTemplate ++ [s.nextAddress]
    nTransactionsUpdatedLast := s.nTransactionsUpdated
    pindexPrev := some s.tip
    nStart := s.nNow
    pblock := some s.nextAddress
    nExtraNonce := nExtraNonce }

/-- Takes over a new template. `CreateNewBlock` has built it on the tip. -/
def saveBlock (s : AuxNode) (tmpl : CBlockTemplate) : Except Fault AuxNode := do
  let tmpl := { tmpl with header := { tmpl.header with hashPrevBlock := s.tip } }
  let (hashPrevBlock, nExtraNonce, tmpl) ← incrementExtraNonce env.hash env.hashPair
    s.hashPrevBlock tmpl (env.blockHeight s.tip) s.nExtraNonce
  return s.push env hashPrevBlock nExtraNonce
    ⟨{ tmpl with header := setAuxpowFlag tmpl.header }, none⟩

/-- The part under `cs_main`: the node afterwards, and the exception if one was
thrown. -/
def updateBlock (s : AuxNode) (newBlock : NewBlock) : Except Fault (AuxNode × Option String) :=
  let fNewTip := s.pindexPrev ≠ some s.tip
  if fNewTip ∨ s.refreshDue then
    let s := if fNewTip then s.clear else s
    match newBlock with
    | .thrown msg => .ok (s, some msg)
    | .null => .ok (s, some "out of memory")
    | .built tmpl _ => do
      let s ← saveBlock env s tmpl
      return (s, none)
  else .ok (s, none)

def describeBlock (s : AuxNode) : Except Fault (Except String AuxWork) := do
  let block ← s.deref s.pblock
  let header := block.tmpl.header
  let (target, fNegative, fOverflow) := ArithUint256.setCompact header.nBits
  if fNegative || fOverflow || target == 0 then
    return .error "invalid difficulty bits in block"
  else do
    let txout ← vectorAt block.tmpl.coinbase.vout 0
    match s.pindexPrev with
    | none => .error .nullDereference
    | some pindexPrev => return .ok {
        hash := block.getHash env
        chainid := header.getChainId
        previousblockhash := header.hashPrevBlock
        coinbasevalue := txout.nValue
        bits := header.nBits
        height := env.blockHeight pindexPrev + 1
        target := target }

def AuxNode.record (s : AuxNode) : Except String AuxWork → AuxNode
  | .ok work => { s with returned := work.hash :: s.returned }
  | .error _ => s

def createBlock (s : AuxNode) (newBlock : NewBlock) :
    Except Fault (AuxNode × Except String AuxWork) := do
  let (s, thrown) ← updateBlock env s newBlock
  match thrown with
  | some msg => return (s, .error msg)
  | none => do
    let result ← describeBlock env s
    return (s.record result, result)

def submitBlock (s : AuxNode) (hash : uint256) (auxpow : Except String CAuxPow) :
    Except Fault (AuxNode × Except String AuxBlock) :=
  match s.mapNewBlock.lookup hash, auxpow with
  | none, _ => .ok (s, .error "block hash unknown")
  | some _, .error msg => .ok (s, .error msg)
  | some address, .ok auxpow => do
    let block ← s.deref (some address)
    let block := block.setAuxpow auxpow
    assertThat (block.getHash env = hash) "block.GetHash() == hash"
    return ({ s with heap := Function.update s.heap address (some block) }, .ok block)

def AuxNode.step (s : AuxNode) : AuxEvent → Except Fault AuxNode
  | .changeTip hash => .ok { s with tip := hash }
  | .updateMempool nTransactionsUpdated =>
    .ok { s with nTransactionsUpdated := nTransactionsUpdated }
  | .setTime nNow => .ok { s with nNow := nNow }
  | .incrementElsewhere hashPrevBlock => .ok { s with hashPrevBlock := hashPrevBlock }
  | .create newBlock => do
    let (s, _) ← createBlock env s newBlock
    return s
  | .submit hash auxpow => do
    let (s, _) ← submitBlock env s hash auxpow
    return s

def AuxNode.init (tip : uint256) (nTransactionsUpdated : UInt32) (nNow : UInt64) : AuxNode where
  tip := tip
  nTransactionsUpdated := nTransactionsUpdated
  nNow := nNow
  hashPrevBlock := 0
  heap := fun _ => none
  nextAddress := 0
  mapNewBlock := []
  vNewBlockTemplate := []
  nTransactionsUpdatedLast := 0
  pindexPrev := none
  nStart := 0
  pblock := none
  nExtraNonce := 0
  returned := []

end

section

variable {env : AuxEnv} {s s' : AuxNode}

@[simp] theorem setAuxpowFlag_idem (header : CPureBlockHeader) :
    setAuxpowFlag (setAuxpowFlag header) = setAuxpowFlag header := by
  simp [setAuxpowFlag, Int32.or_assoc]

structure AuxBlock.WellFormed (block : AuxBlock) : Prop where
  flag : setAuxpowFlag block.tmpl.header = block.tmpl.header
  vout : block.tmpl.coinbase.vout ≠ []

theorem AuxBlock.WellFormed.setAuxpow {block : AuxBlock} (h : block.WellFormed)
    (auxpow : CAuxPow) : (block.setAuxpow auxpow).tmpl = block.tmpl := by
  rw [AuxBlock.setAuxpow, h.flag]

theorem saveBlock_eq {env : AuxEnv} {s : AuxNode} {tmpl : CBlockTemplate}
    (hvout : tmpl.coinbase.vout ≠ []) :
    ∃ hashPrevBlock nExtraNonce block,
      saveBlock env s tmpl = .ok (s.push env hashPrevBlock nExtraNonce block) ∧
        block.WellFormed ∧ block.tmpl.header.hashPrevBlock = s.tip := by
  unfold saveBlock
  dsimp only
  rw [incrementExtraNonce_eq]
  exact ⟨_, _, _, rfl, ⟨setAuxpowFlag_idem _, hvout⟩, rfl⟩

/-- The pointers of the static variables point to blocks that are there, under their
own hashes; the last block is one on `pindexPrev`, and what was returned can be
found. -/
structure Consistent (env : AuxEnv) (s : AuxNode) : Prop where
  heap : ∀ address block, s.heap address = some block →
    address < s.nextAddress ∧ block.WellFormed
  mapNewBlock : ∀ hash address, (hash, address) ∈ s.mapNewBlock →
    ∃ block, s.heap address = some block ∧ block.getHash env = hash
  pblock : ∀ address, s.pblock = some address →
    ∃ block, s.heap address = some block ∧
      s.pindexPrev = some block.tmpl.header.hashPrevBlock ∧
      (block.getHash env, address) ∈ s.mapNewBlock
  returned : ∀ hash ∈ s.returned, ∃ address, (hash, address) ∈ s.mapNewBlock

namespace Consistent

theorem init (tip : uint256) (nTransactionsUpdated : UInt32) (nNow : UInt64) :
    Consistent env (AuxNode.init tip nTransactionsUpdated nNow) where
  heap := fun _ _ h => nomatch h
  mapNewBlock := fun _ _ h => nomatch h
  pblock := fun _ h => nomatch h
  returned := fun _ h => nomatch h

theorem clear (hs : Consistent env s) : Consistent env s.clear where
  heap := by
    intro address block h
    have hblock : (if address ∈ s.vNewBlockTemplate then none else s.heap address) =
      some block := h
    split_ifs at hblock
    exact hs.heap address block hblock
  mapNewBlock := fun _ _ h => nomatch h
  pblock := fun _ h => nomatch h
  returned := fun _ h => nomatch h

theorem push (hs : Consistent env s) {block : AuxBlock} (hblock : block.WellFormed)
    (htip : block.tmpl.header.hashPrevBlock = s.tip) (hashPrevBlock : uint256)
    (nExtraNonce : UInt32) : Consistent env (s.push env hashPrevBlock nExtraNonce block) := by
  have hnew : (s.push env hashPrevBlock nExtraNonce block).heap s.nextAddress = some block :=
    update_self _ _ _
  have hold {address : ℕ} {other : AuxBlock} (h : s.heap address = some other) :
      (s.push env hashPrevBlock nExtraNonce block).heap address = some other := by
    have hne : address ≠ s.nextAddress := (hs.heap address other h).1.ne
    exact (update_of_ne hne _ _).trans h
  refine ⟨fun address other h => ?_, fun hash address h => ?_, fun address h => ?_,
    fun hash h => ?_⟩
  · by_cases heq : address = s.nextAddress
    · subst heq
      cases hnew.symm.trans h
      exact ⟨Nat.lt_succ_self _, hblock⟩
    · have hother : s.heap address = some other := (update_of_ne heq _ _).symm.trans h
      obtain ⟨hlt, hwell⟩ := hs.heap address other hother
      exact ⟨Nat.lt_succ_of_lt hlt, hwell⟩
  · rcases mem_cons.1 h with h | h
    · cases h
      exact ⟨block, hnew, rfl⟩
    · obtain ⟨other, hother, hhash⟩ := hs.mapNewBlock hash address h
      exact ⟨other, hold hother, hhash⟩
  · cases h
    exact ⟨block, hnew, congrArg some htip.symm, mem_cons_self⟩
  · obtain ⟨address, h⟩ := hs.returned hash h
    exact ⟨address, mem_cons_of_mem _ h⟩

end Consistent

end

section

variable {env : AuxEnv} {s : AuxNode}

/-- The block was dropped and none could be created, and now the tip is back where it
was when the last one was created. -/
def AuxNode.Stranded (s : AuxNode) : Prop :=
  s.pindexPrev = some s.tip ∧ s.pblock = none ∧ s.refreshDue = false

variable {newBlock : NewBlock}

theorem updateBlock_spec (hs : Consistent env s) :
    ∃ s' thrown, updateBlock env s newBlock = .ok (s', thrown) ∧ Consistent env s' ∧
      (thrown = none → s'.pindexPrev = some s.tip ∧ (s'.pblock = none ↔ s.Stranded)) := by
  unfold updateBlock
  dsimp only
  by_cases hdue : s.pindexPrev ≠ some s.tip ∨ s.refreshDue = true
  · rw [if_pos hdue]
    have hcleared : Consistent env (if s.pindexPrev ≠ some s.tip then s.clear else s) := by
      split_ifs
      · exact hs.clear
      · exact hs
    have htip : (if s.pindexPrev ≠ some s.tip then s.clear else s).tip = s.tip := by
      split_ifs <;> rfl
    have hnot : ¬ s.Stranded := by
      rintro ⟨hprev, -, hrefresh⟩
      rcases hdue with hdue | hdue
      · exact hdue hprev
      · rw [hrefresh] at hdue
        exact Bool.false_ne_true hdue
    cases newBlock with
    | thrown msg => exact ⟨_, _, rfl, hcleared, nofun⟩
    | null => exact ⟨_, _, rfl, hcleared, nofun⟩
    | built tmpl hvout =>
      obtain ⟨hashPrevBlock, nExtraNonce, block, hsave, hblock, hprev⟩ :=
        saveBlock_eq hvout
      dsimp only
      rw [hsave]
      refine ⟨_, _, rfl, hcleared.push hblock hprev _ _, fun _ => ⟨congrArg some htip, ?_⟩⟩
      exact iff_of_false nofun hnot
  · rw [if_neg hdue]
    rw [not_or, not_not, Bool.not_eq_true] at hdue
    refine ⟨s, none, rfl, hs, fun _ => ⟨hdue.1, ?_⟩⟩
    exact ⟨fun hnull => ⟨hdue.1, hnull, hdue.2⟩, fun hstranded => hstranded.2.1⟩

theorem describeBlock_spec (hs : Consistent env s)
    (hpblock : s.pblock = some address) {pindexPrev : uint256}
    (hprev : s.pindexPrev = some pindexPrev) :
    ∃ result, describeBlock env s = .ok result ∧ ∀ work, result = .ok work →
      work.height = env.blockHeight pindexPrev + 1 ∧ work.previousblockhash = pindexPrev ∧
        (work.hash, address) ∈ s.mapNewBlock := by
  obtain ⟨block, hblock, hindex, hmem⟩ := hs.pblock address hpblock
  obtain ⟨txout, vout, hvout⟩ := exists_cons_of_ne_nil (hs.heap address block hblock).2.vout
  have hderef : s.deref s.pblock = .ok block := by
    rw [hpblock]
    simp only [AuxNode.deref, hblock]
  cases hprev.symm.trans hindex
  unfold describeBlock
  rw [hderef, ok_bind]
  dsimp only
  split
  · exact ⟨_, rfl, nofun⟩
  · rw [hvout, hindex]
    refine ⟨_, rfl, fun work hwork => ?_⟩
    cases hwork
    exact ⟨rfl, rfl, hmem⟩

/-- A call that creates a block comes back without a fault, and the hash and height
it returns are those of a block on the tip it has seen. -/
def CreateSound (env : AuxEnv) (s : AuxNode) (newBlock : NewBlock) : Prop :=
  ∃ s' result, createBlock env s newBlock = .ok (s', result) ∧ ∀ work, result = .ok work →
    work.height = env.blockHeight s.tip + 1 ∧ work.previousblockhash = s.tip ∧
      ∃ address block, s'.heap address = some block ∧
        block.tmpl.header.hashPrevBlock = s.tip ∧ block.getHash env = work.hash

theorem Consistent.record (hs : Consistent env s) {result : Except String AuxWork}
    (hresult : ∀ work, result = .ok work → ∃ address, (work.hash, address) ∈ s.mapNewBlock) :
    Consistent env (s.record result) := by
  cases result with
  | error msg => exact hs
  | ok work =>
    refine ⟨hs.heap, hs.mapNewBlock, hs.pblock, fun hash hmem => ?_⟩
    rcases mem_cons.1 hmem with rfl | hmem
    · exact hresult work rfl
    · exact hs.returned hash hmem

theorem createBlock_ok (hs : Consistent env s) (hnot : ¬ s.Stranded) :
    ∃ s' result, createBlock env s newBlock = .ok (s', result) ∧ Consistent env s' ∧
      ∀ work, result = .ok work → work.height = env.blockHeight s.tip + 1 ∧
        work.previousblockhash = s.tip ∧ ∃ address block, s'.heap address = some block ∧
          block.tmpl.header.hashPrevBlock = s.tip ∧ block.getHash env = work.hash := by
  obtain ⟨s', thrown, hupdate, hs', hnone⟩ := updateBlock_spec hs
  unfold createBlock
  rw [hupdate, ok_bind]
  cases thrown with
  | some msg => exact ⟨_, _, rfl, hs', nofun⟩
  | none =>
    obtain ⟨hprev, hnull⟩ := hnone rfl
    obtain ⟨address, hpblock⟩ := Option.ne_none_iff_exists'.1 fun h => hnot (hnull.1 h)
    obtain ⟨result, hdescribe, hwork⟩ := describeBlock_spec hs' hpblock hprev
    dsimp only
    rw [hdescribe, ok_bind]
    refine ⟨_, _, rfl, hs'.record fun work hresult => ⟨address, (hwork work hresult).2.2⟩, ?_⟩
    intro work hresult
    obtain ⟨hheight, hprevhash, hmem⟩ := hwork work hresult
    obtain ⟨block, hblock, hhash⟩ := hs'.mapNewBlock _ _ hmem
    obtain ⟨block', hblock', hindex, -⟩ := hs'.pblock address hpblock
    cases hblock.symm.trans hblock'
    refine ⟨hheight, hprevhash, address, block, ?_, ?_, hhash⟩
    · rw [hresult]
      exact hblock
    · exact (Option.some_inj.1 (hprev.symm.trans hindex)).symm

theorem createBlock_stranded (h : s.Stranded) (newBlock : NewBlock) :
    createBlock env s newBlock = .error .nullDereference := by
  obtain ⟨hprev, hnull, hrefresh⟩ := h
  have hupdate : updateBlock env s newBlock = .ok (s, none) := by
    simp [updateBlock, hprev, hrefresh]
  unfold createBlock
  rw [hupdate, ok_bind]
  dsimp only
  rw [describeBlock, hnull]
  rfl

theorem createSound_iff (hs : Consistent env s) : CreateSound env s newBlock ↔ ¬ s.Stranded := by
  constructor
  · rintro ⟨s', result, hcreate, -⟩ hstranded
    rw [createBlock_stranded hstranded] at hcreate
    exact nomatch hcreate
  · intro hnot
    obtain ⟨s', result, hcreate, -, hwork⟩ := createBlock_ok hs hnot
    exact ⟨s', result, hcreate, hwork⟩

variable {s' : AuxNode}

theorem Consistent.setAuxpow (hs : Consistent env s) {block : AuxBlock}
    (hblock : s.heap address = some block) (auxpow : CAuxPow) :
    Consistent env
      { s with heap := Function.update s.heap address (some (block.setAuxpow auxpow)) } := by
  have hwell := (hs.heap address block hblock).2
  have htmpl := hwell.setAuxpow auxpow
  -- whatever was on the heap has the same template
  have hsame {other : ℕ} {b : AuxBlock} (h : s.heap other = some b) :
      ∃ b', Function.update s.heap address (some (block.setAuxpow auxpow)) other = some b' ∧
        b'.tmpl = b.tmpl := by
    by_cases heq : other = address
    · subst heq
      cases hblock.symm.trans h
      exact ⟨_, update_self _ _ _, htmpl⟩
    · exact ⟨b, (update_of_ne heq _ _).trans h, rfl⟩
  refine ⟨fun other b h => ?_, fun hash other h => ?_, fun other h => ?_, hs.returned⟩
  · by_cases heq : other = address
    · subst heq
      cases (update_self _ _ _).symm.trans h
      refine ⟨(hs.heap other block hblock).1, ?_, ?_⟩
      · rw [htmpl, hwell.flag]
      · rw [htmpl]
        exact hwell.vout
    · exact hs.heap other b ((update_of_ne heq _ _).symm.trans h)
  · obtain ⟨b, hb, hhash⟩ := hs.mapNewBlock hash other h
    obtain ⟨b', hb', htmpl'⟩ := hsame hb
    exact ⟨b', hb', by rw [AuxBlock.getHash, htmpl']; exact hhash⟩
  · obtain ⟨b, hb, hindex, hmem⟩ := hs.pblock other h
    obtain ⟨b', hb', htmpl'⟩ := hsame hb
    refine ⟨b', hb', by rw [htmpl']; exact hindex, ?_⟩
    rw [AuxBlock.getHash, htmpl']
    exact hmem

variable {hash : uint256}

theorem submitBlock_found (hs : Consistent env s)
    (hlookup : s.mapNewBlock.lookup hash = some address) {auxpow : CAuxPow} :
    ∃ s' block, submitBlock env s hash (.ok auxpow) = .ok (s', .ok block) ∧
      block.getHash env = hash ∧ Consistent env s' := by
  obtain ⟨before, after, hmap, -⟩ := lookup_eq_some_iff.1 hlookup
  have hmem : (hash, address) ∈ s.mapNewBlock := by
    rw [hmap]
    exact mem_append_right _ mem_cons_self
  obtain ⟨block, hblock, hhash⟩ := hs.mapNewBlock hash address hmem
  have htmpl := (hs.heap address block hblock).2.setAuxpow auxpow
  have hsubmit : (block.setAuxpow auxpow).getHash env = hash := by
    rw [AuxBlock.getHash, htmpl]
    exact hhash
  refine ⟨_, block.setAuxpow auxpow, ?_, hsubmit, hs.setAuxpow hblock auxpow⟩
  simp only [submitBlock, hlookup, AuxNode.deref, hblock, ok_bind, assertThat_of_true hsubmit]
  rfl

theorem submitBlock_ok (hs : Consistent env s) {auxpow : Except String CAuxPow} :
    ∃ s' result, submitBlock env s hash auxpow = .ok (s', result) ∧ Consistent env s' := by
  cases hlookup : s.mapNewBlock.lookup hash with
  | none =>
    refine ⟨s, .error "block hash unknown", ?_, hs⟩
    simp only [submitBlock, hlookup]
  | some address =>
    cases auxpow with
    | error msg =>
      refine ⟨s, .error msg, ?_, hs⟩
      simp only [submitBlock, hlookup]
    | ok auxpow =>
      obtain ⟨s', block, hsubmit, -, hs'⟩ := submitBlock_found hs hlookup
      exact ⟨s', _, hsubmit, hs'⟩

/-- Whatever was returned since the last change of the tip is found by a submission,
and its assertion holds. -/
def SubmitFinds (env : AuxEnv) (s : AuxNode) : Prop :=
  ∀ hash ∈ s.returned, ∀ auxpow, ∃ s' block,
    submitBlock env s hash (.ok auxpow) = .ok (s', .ok block) ∧ block.getHash env = hash

theorem Consistent.submitFinds (hs : Consistent env s) : SubmitFinds env s := by
  intro hash hmem auxpow
  obtain ⟨address, hentry⟩ := hs.returned hash hmem
  obtain ⟨address', hlookup⟩ := Option.isSome_iff_exists.1
    (lookup_isSome_iff.2 ⟨(hash, address), hentry, beq_self_eq_true hash⟩)
  obtain ⟨s', block, hsubmit, hhash, -⟩ := submitBlock_found hs hlookup
  exact ⟨s', block, hsubmit, hhash⟩

end

section

variable {env : AuxEnv} {s s' : AuxNode}

def CallSound (env : AuxEnv) (s : AuxNode) : AuxEvent → Prop
  | .create newBlock => CreateSound env s newBlock
  | _ => True

/-- No call that creates a block arrives at a stranded node. -/
def NotStranded (s : AuxNode) : AuxEvent → Prop
  | .create _ => ¬ s.Stranded
  | _ => True

theorem Consistent.step (hs : Consistent env s) {e : AuxEvent}
    (hstep : s.step env e = .ok s') : Consistent env s' := by
  cases e with
  | create newBlock =>
    by_cases hstranded : s.Stranded
    · rw [AuxNode.step, createBlock_stranded hstranded] at hstep
      exact nomatch hstep
    · obtain ⟨s₁, result, hcreate, hs₁, -⟩ := createBlock_ok hs hstranded
      rw [AuxNode.step, hcreate] at hstep
      cases hstep
      exact hs₁
  | submit hash auxpow =>
    obtain ⟨s₁, result, hsubmit, hs₁⟩ := submitBlock_ok hs
    rw [AuxNode.step, hsubmit] at hstep
    cases hstep
    exact hs₁
  | _ =>
    cases hstep
    exact ⟨hs.heap, hs.mapNewBlock, hs.pblock, hs.returned⟩

theorem callSound_iff (hs : Consistent env s) (e : AuxEvent) :
    CallSound env s e ↔ NotStranded s e := by
  cases e with
  | create newBlock => exact createSound_iff hs
  | _ => exact Iff.rfl

/-- In every run, what `getauxblock` has returned since a call last saw a changed tip is
found by a submission in every state that is reached; and its calls that create blocks
are all sound, if and only if none arrives at a stranded node. -/
theorem getauxblock_sound_iff (env : AuxEnv) (tip : uint256) (nTransactionsUpdated : UInt32)
    (nNow : UInt64) (events : List AuxEvent) :
    (∀ done s, done <+: events →
        done.foldlM (AuxNode.step env) (.init tip nTransactionsUpdated nNow) = .ok s →
          SubmitFinds env s) ∧
      (AllMeetM (AuxNode.step env) (CallSound env) (.init tip nTransactionsUpdated nNow) events ↔
        AllMeetM (AuxNode.step env) NotStranded (.init tip nTransactionsUpdated nNow) events) := by
  have hinit : Consistent env (.init tip nTransactionsUpdated nNow) := .init _ _ _
  have hkeep (s : AuxNode) (e : AuxEvent) (s' : AuxNode) (hs : Consistent env s)
      (hstep : s.step env e = .ok s') : Consistent env s' := hs.step hstep
  refine ⟨fun done s _ hrun => ?_, allMeetM_congr hkeep (fun s e hs => callSound_iff hs e) hinit⟩
  exact (foldlM_keeps (fun s e s' _ => hkeep s e s') hinit hrun).submitFinds

def sampleAuxEnv : AuxEnv where
  hash := fun bytes => BitVec.ofNat 256 (bytes.foldl (fun n b => 257 * n + b.toNat + 1) 0)
  hashPair := fun x y => x + 3 * y
  blockHeight := fun hash => Int32.ofNat hash.toNat

def sampleNewBlock : NewBlock :=
  .built
    { header := ⟨0x00620104, 0, 0, 1, 0x1e0ffff0, 0⟩
      coinbase := ⟨1, [⟨⟨0, 0xffffffff⟩, [], 0xffffffff, []⟩], [⟨50, [0x52]⟩], 0⟩
      txs := []
      vin_ne_nil := by decide } (by decide)

/-- The first call. -/
theorem getauxblock_sound_iff_first : CreateSound sampleAuxEnv (.init 7 0 1000) sampleNewBlock :=
  ((getauxblock_sound_iff sampleAuxEnv 7 0 1000 [.create sampleNewBlock]).2.2
    ⟨fun h => (nomatch h.1), fun _ _ => trivial⟩).1

/-- A block is created, the tip moves on, the next block cannot be created, and the tip
moves back. -/
def sampleStranded : List AuxEvent :=
  [.create sampleNewBlock, .changeTip 8, .create (.thrown "TestBlockValidity failed"),
    .changeTip 7]

/-- The next call reads through a null pointer. -/
theorem getauxblock_null_after_failure :
    ∃ s, sampleStranded.foldlM (AuxNode.step sampleAuxEnv) (.init 7 0 1000) = .ok s ∧
      createBlock sampleAuxEnv s sampleNewBlock = .error .nullDereference ∧
      ¬ CreateSound sampleAuxEnv s sampleNewBlock := by
  have hrun : (sampleStranded.foldlM (AuxNode.step sampleAuxEnv) (.init 7 0 1000)).toOption.map
      (fun s => (s.tip, s.pindexPrev, s.pblock, s.refreshDue)) = some (7, some 7, none, false) := by
    decide +kernel
  obtain ⟨s, hs, hfields⟩ := Option.map_eq_some_iff.1 hrun
  obtain ⟨htip, hprev, hnull, hrefresh⟩ : s.tip = 7 ∧ s.pindexPrev = some 7 ∧ s.pblock = none ∧
      s.refreshDue = false := by
    simpa using hfields
  have hcreate : createBlock sampleAuxEnv s sampleNewBlock = .error .nullDereference :=
    createBlock_stranded ⟨hprev.trans (congrArg some htip.symm), hnull, hrefresh⟩ _
  refine ⟨s, eq_ok_of_toOption hs, hcreate, ?_⟩
  rintro ⟨s', result, hok, -⟩
  rw [hcreate] at hok
  exact nomatch hok

end

end Mining

end Coinyecoin
