import Coinyecoin.Arith.Compact
import Coinyecoin.Foundation.Runs
import Coinyecoin.Mining.Template

/-!
# The built-in miner

`GenerateCoinyecoins` starts a number of `CoinyecoinMinerThread`s with one payout
script. The threads are a state machine over the stretches between their critical
sections; the chain tip moves on its own. What the threads share is the tip and
the static variable of `IncrementExtraNonce`.

`hashed` records every header that was hashed and by which thread. The hash meter
and what `ProcessNewBlock` makes of a block are left out.
-/

namespace Coinyecoin

namespace Mining

open Foundation

/-- The parts of the node that the threads rely on. A block index is given by the
hash of its block. -/
structure MinerEnv where
  hash : Bytes → uint256
  hashPair : uint256 → uint256 → uint256
  getPoWHash : CPureBlockHeader → uint256
  blockHeight : uint256 → Int32
  getMedianTimePast : uint256 → ℤ
  fPowAllowMinDifficultyBlocks : uint256 → Bool
  getNextWorkRequired : uint256 → CPureBlockHeader → UInt32

/-- Where a thread is: at the start of its loop, with a tip, with a template on
which the extranonce is not set yet, or hashing. -/
inductive MinerPhase where
  | start
  | tip (pindexPrev : uint256)
  | template (pindexPrev : uint256) (tmpl : CBlockTemplate)
  | hashing (pindexPrev : uint256) (pblock : CBlockTemplate) (hashTarget : uint256) (nStart : ℤ)
      (i : ℕ)
  | stopped

structure MinerThread where
  nExtraNonce : UInt32
  phase : MinerPhase

structure Miner where
  tip : Option uint256
  hashPrevBlock : uint256
  threads : List MinerThread
  hashed : List (ℕ × CPureBlockHeader)

/-- The steps, those of thread `t` in the order in which it takes them.
`createNewBlock` brings the template, or nothing if there is none; a thread can be
stopped by an exception or by an interruption. -/
inductive MinerEvent where
  | changeTip (tip : Option uint256)
  | readTip (t : ℕ)
  | createNewBlock (t : ℕ) (tmpl : Option CBlockTemplate)
  | incrementExtraNonce (t : ℕ) (nNow : ℤ)
  | getPoWHash (t : ℕ)
  | goOn (t : ℕ) (nNow nAdjustedTime : ℤ)
  | stop (t : ℕ)

section

variable (env : MinerEnv) (coinbaseScript : CScript)

def updateTime (nAdjustedTime : ℤ) (pindexPrev : uint256) (header : CPureBlockHeader) :
    CPureBlockHeader :=
  let nNewTime := max (env.getMedianTimePast pindexPrev + 1) nAdjustedTime
  let header :=
    if header.getBlockTime < nNewTime then { header with nTime := UInt32.ofInt nNewTime }
    else header
  if env.fPowAllowMinDifficultyBlocks pindexPrev then
    { header with nBits := env.getNextWorkRequired pindexPrev header }
  else header

/-- What `CreateNewBlock` fixes in its result: it builds on the tip, starts at nonce
zero and pays to the script it is given. -/
def CanCreate (tip : Option uint256) (tmpl : CBlockTemplate) : Prop :=
  tip = some tmpl.header.hashPrevBlock ∧ tmpl.header.nNonce = 0 ∧
    tmpl.coinbase.vout.head?.map CTxOut.scriptPubKey = some coinbaseScript

instance (tip : Option uint256) (tmpl : CBlockTemplate) :
    Decidable (CanCreate coinbaseScript tip tmpl) :=
  inferInstanceAs (Decidable (_ ∧ _ ∧ _))

def Miner.setThread (s : Miner) (t : ℕ) (thread : MinerThread) : Miner :=
  { s with threads := s.threads.set t thread }

def stepReadTip (s : Miner) (t : ℕ) (thread : MinerThread) : Miner :=
  match thread.phase, s.tip with
  | .start, some pindexPrev => s.setThread t { thread with phase := .tip pindexPrev }
  | _, _ => s

def stepCreateNewBlock (s : Miner) (t : ℕ) (tmpl : Option CBlockTemplate) (thread : MinerThread) :
    Miner :=
  match thread.phase, tmpl with
  | .tip pindexPrev, some tmpl =>
    if CanCreate coinbaseScript s.tip tmpl then
      s.setThread t { thread with phase := .template pindexPrev tmpl }
    else s
  | .tip _, none => s.setThread t { thread with phase := .start }
  | _, _ => s

/-- The tip is compared and the extranonce set in one critical section. The target is
computed once, from the bits the template came with. -/
def stepIncrementExtraNonce (s : Miner) (t : ℕ) (nNow : ℤ) (thread : MinerThread) : Miner :=
  match thread.phase with
  | .template pindexPrev tmpl =>
    if s.tip ≠ some pindexPrev then s.setThread t { thread with phase := .start }
    else
      match incrementExtraNonce env.hash env.hashPair s.hashPrevBlock tmpl
          (env.blockHeight pindexPrev) thread.nExtraNonce with
      | .ok (hashPrevBlock, nExtraNonce, pblock) =>
        let hashTarget := (ArithUint256.setCompact pblock.header.nBits).1
        { s.setThread t ⟨nExtraNonce, .hashing pindexPrev pblock hashTarget nNow 0⟩ with
          hashPrevBlock := hashPrevBlock }
      | .error _ => s.setThread t { thread with phase := .stopped }
  | _ => s

/-- One round of the loop over 500 nonces. A block that is found ends both loops. -/
def stepGetPoWHash (s : Miner) (t : ℕ) (thread : MinerThread) : Miner :=
  match thread.phase with
  | .hashing pindexPrev pblock hashTarget nStart i =>
    if i < 500 then
      let phase :=
        if env.getPoWHash pblock.header ≤ hashTarget then .start
        else
          let header := { pblock.header with nNonce := pblock.header.nNonce + 1 }
          .hashing pindexPrev { pblock with header := header } hashTarget nStart (i + 1)
      { s.setThread t { thread with phase := phase } with
        hashed := s.hashed ++ [(t, pblock.header)] }
    else s
  | _ => s

/-- After 500 nonces the thread goes on with the block, or starts over. -/
def stepGoOn (s : Miner) (t : ℕ) (nNow nAdjustedTime : ℤ) (thread : MinerThread) : Miner :=
  match thread.phase with
  | .hashing pindexPrev pblock hashTarget nStart i =>
    if i < 500 then s
    else if pblock.header.nNonce ≥ 0xffff0000 ∨ s.tip ≠ some pindexPrev ∨ nNow - nStart > 60 then
      s.setThread t { thread with phase := .start }
    else
      let header := updateTime env nAdjustedTime pindexPrev pblock.header
      s.setThread t { thread with
        phase := .hashing pindexPrev { pblock with header := header } hashTarget nStart 0 }
  | _ => s

def onThread (s : Miner) (t : ℕ) (f : MinerThread → Miner) : Miner :=
  match s.threads[t]? with
  | some thread => f thread
  | none => s

def minerStep (s : Miner) : MinerEvent → Miner
  | .changeTip tip => { s with tip := tip }
  | .readTip t => onThread s t (stepReadTip s t)
  | .createNewBlock t tmpl => onThread s t (stepCreateNewBlock coinbaseScript s t tmpl)
  | .incrementExtraNonce t nNow => onThread s t (stepIncrementExtraNonce env s t nNow)
  | .getPoWHash t => onThread s t (stepGetPoWHash env s t)
  | .goOn t nNow nAdjustedTime => onThread s t (stepGoOn env s t nNow nAdjustedTime)
  | .stop t => onThread s t fun thread => s.setThread t { thread with phase := .stopped }

/-- `GenerateCoinyecoins` with `n` threads; the static variable may have any value
from before. -/
def generate (tip : Option uint256) (hashPrevBlock : uint256) (n : ℕ) : Miner where
  tip := tip
  hashPrevBlock := hashPrevBlock
  threads := List.replicate n ⟨0, .start⟩
  hashed := []

def mine (tip : Option uint256) (hashPrevBlock : uint256) (n : ℕ) (events : List MinerEvent) :
    Miner :=
  runEvents (minerStep env coinbaseScript) (generate tip hashPrevBlock n) events

end

section

def HeadersDisjoint (s : Miner) : Prop :=
  ∀ entry ∈ s.hashed, ∀ entry' ∈ s.hashed, entry.2 = entry'.2 → entry.1 = entry'.1

/-- Threads that hash on the same previous block with the same transactions and the
same time do so with different coinbases and different merkle roots. -/
def CoinbasesDiffer (s : Miner) : Prop :=
  ∀ (t t' : ℕ) (n n' : UInt32) (pindexPrev pindexPrev' : uint256) (pblock pblock' : CBlockTemplate)
    (hashTarget hashTarget' : uint256) (nStart nStart' : ℤ) (i i' : ℕ), t ≠ t' →
    s.threads[t]? = some ⟨n, .hashing pindexPrev pblock hashTarget nStart i⟩ →
    s.threads[t']? = some ⟨n', .hashing pindexPrev' pblock' hashTarget' nStart' i'⟩ →
    pblock.header.hashPrevBlock = pblock'.header.hashPrevBlock → pblock.txs = pblock'.txs →
    pblock.header.nTime = pblock'.header.nTime →
      pblock.coinbase ≠ pblock'.coinbase ∧
        pblock.header.hashMerkleRoot ≠ pblock'.header.hashMerkleRoot

end

/-- What the nonces of a block are searched in. -/
structure SearchSpace where
  hashPrevBlock : uint256
  txs : List CTransaction
  nTime : UInt32
  scriptSig : CScript
deriving DecidableEq

section

variable (env : MinerEnv) (owner : SearchSpace → ℕ) (content : uint256 → CScript × List CTransaction)

/-- The height and the extranonce that `IncrementExtraNonce` is about to put into a coinbase: 1 if
the static variable has another block, else the thread's own, plus 1. -/
def nextScript (s : Miner) (nExtraNonce : UInt32) (pindexPrev : uint256) (tmpl : CBlockTemplate) :
    CScript :=
  extraNonceScript (env.blockHeight pindexPrev + 1).toUInt32
    ((if s.hashPrevBlock ≠ tmpl.header.hashPrevBlock then 0 else nExtraNonce) + 1)

/-- A thread that starts on a block, or goes on with it, is the owner of the space it comes to. -/
def KeepsToOwn (s : Miner) : MinerEvent → Prop
  | .incrementExtraNonce t _ => ∀ nExtraNonce pindexPrev tmpl,
    s.threads[t]? = some ⟨nExtraNonce, .template pindexPrev tmpl⟩ → s.tip = some pindexPrev →
      owner ⟨tmpl.header.hashPrevBlock, tmpl.txs, tmpl.header.nTime,
        nextScript env s nExtraNonce pindexPrev tmpl⟩ = t
  | .goOn t nNow nAdjustedTime => ∀ nExtraNonce pindexPrev pblock hashTarget nStart,
    s.threads[t]? = some ⟨nExtraNonce, .hashing pindexPrev pblock hashTarget nStart 500⟩ →
      pblock.header.nNonce < 0xffff0000 → s.tip = some pindexPrev → nNow - nStart ≤ 60 →
        owner ⟨pblock.header.hashPrevBlock, pblock.txs,
          (updateTime env nAdjustedTime pindexPrev pblock.header).nTime, pblock.scriptSig⟩ = t
  | _ => True

/-- The hashes do not collide: the merkle root tells the script and the transactions. -/
def RootTells (s : Miner) : MinerEvent → Prop
  | .incrementExtraNonce t _ => ∀ nExtraNonce pindexPrev tmpl,
    s.threads[t]? = some ⟨nExtraNonce, .template pindexPrev tmpl⟩ → s.tip = some pindexPrev →
      let scriptSig := nextScript env s nExtraNonce pindexPrev tmpl
      content (tmpl.withScriptSig env.hash env.hashPair scriptSig).header.hashMerkleRoot =
        (scriptSig, tmpl.txs)
  | _ => True

/-- A thread that hashes does so in its own space. -/
def MinerThread.AtHome (t : ℕ) (thread : MinerThread) : Prop :=
  match thread.phase with
  | .hashing _ pblock _ _ i =>
    i ≤ 500 ∧ content pblock.header.hashMerkleRoot = (pblock.scriptSig, pblock.txs) ∧
      owner ⟨pblock.header.hashPrevBlock, pblock.txs, pblock.header.nTime, pblock.scriptSig⟩ = t
  | _ => True

/-- All threads are at home, and each was at every header it hashed. -/
structure Apart (s : Miner) : Prop where
  threads : ∀ (t : ℕ) (thread : MinerThread), s.threads[t]? = some thread →
    thread.AtHome owner content t
  hashed : ∀ entry ∈ s.hashed,
    owner ⟨entry.2.hashPrevBlock, (content entry.2.hashMerkleRoot).2, entry.2.nTime,
      (content entry.2.hashMerkleRoot).1⟩ = entry.1

variable {env owner content} {coinbaseScript : CScript} {s : Miner} {t : ℕ}

theorem apart_generate (tip : Option uint256) (hashPrevBlock : uint256) (n : ℕ) :
    Apart owner content (generate tip hashPrevBlock n) := by
  refine ⟨fun t thread hthread => ?_, fun _ h => nomatch h⟩
  rw [List.eq_of_mem_replicate (List.mem_of_getElem? hthread)]
  trivial

theorem Apart.setThread (h : Apart owner content s) {thread : MinerThread}
    (hthread : thread.AtHome owner content t) : Apart owner content (s.setThread t thread) := by
  refine ⟨fun t' thread' hget => ?_, h.hashed⟩
  rw [Miner.setThread, List.getElem?_set] at hget
  split_ifs at hget with heq
  · cases hget
    exact heq ▸ hthread
  · exact h.threads t' thread' hget

theorem Apart.onThread {f : MinerThread → Miner} (h : Apart owner content s)
    (hf : ∀ thread, s.threads[t]? = some thread → Apart owner content (f thread)) :
    Apart owner content (onThread s t f) := by
  unfold Mining.onThread
  split
  · rename_i thread hthread
    exact hf thread hthread
  · exact h

theorem Apart.stepCreateNewBlock (h : Apart owner content s) (tmpl : Option CBlockTemplate)
    (thread : MinerThread) :
    Apart owner content (stepCreateNewBlock coinbaseScript s t tmpl thread) := by
  unfold Mining.stepCreateNewBlock
  split
  · split_ifs
    · exact h.setThread trivial
    · exact h
  · exact h.setThread trivial
  · exact h

theorem Apart.stepIncrementExtraNonce {nNow : ℤ} {thread : MinerThread}
    (h : Apart owner content s) (hthread : s.threads[t]? = some thread)
    (hown : KeepsToOwn env owner s (.incrementExtraNonce t nNow))
    (hroot : RootTells env content s (.incrementExtraNonce t nNow)) :
    Apart owner content (stepIncrementExtraNonce env s t nNow thread) := by
  unfold Mining.stepIncrementExtraNonce
  obtain ⟨nExtraNonce, phase⟩ := thread
  split
  · rename_i pindexPrev tmpl hphase
    cases hphase
    by_cases htip : s.tip = some pindexPrev
    · rw [if_neg (not_not_intro htip), incrementExtraNonce_eq]
      have hhome : ∀ n, MinerThread.AtHome owner content t ⟨n, .hashing pindexPrev
          (tmpl.withScriptSig env.hash env.hashPair (nextScript env s nExtraNonce pindexPrev tmpl))
          (ArithUint256.setCompact tmpl.header.nBits).1 nNow 0⟩ := by
        intro n
        refine ⟨Nat.zero_le _, ?_, ?_⟩ <;> rw [CBlockTemplate.scriptSig_withScriptSig]
        · exact hroot _ _ _ hthread htip
        · exact hown _ _ tmpl hthread htip
      exact ⟨(h.setThread (hhome _)).threads, h.hashed⟩
    · rw [if_pos htip]
      exact h.setThread trivial
  · exact h

theorem Apart.stepGetPoWHash {thread : MinerThread} (h : Apart owner content s)
    (hthread : s.threads[t]? = some thread) :
    Apart owner content (stepGetPoWHash env s t thread) := by
  have hhome := h.threads t thread hthread
  unfold Mining.stepGetPoWHash
  obtain ⟨nExtraNonce, phase⟩ := thread
  split
  · rename_i pindexPrev pblock hashTarget nStart i hphase
    cases hphase
    obtain ⟨-, hroot, hown⟩ := hhome
    by_cases hi : i < 500
    · rw [if_pos hi]
      have hnext : ∀ phase, MinerThread.AtHome owner content t ⟨nExtraNonce, phase⟩ →
          Apart owner content { s.setThread t ⟨nExtraNonce, phase⟩ with
            hashed := s.hashed ++ [(t, pblock.header)] } := by
        intro phase hphase
        refine ⟨(h.setThread hphase).threads, List.forall_mem_append.2 ⟨h.hashed, ?_⟩⟩
        rw [List.forall_mem_singleton, hroot]
        exact hown
      refine hnext _ ?_
      split_ifs
      · trivial
      · exact ⟨hi, hroot, hown⟩
    · rw [if_neg hi]
      exact h
  · exact h

theorem updateTime_hashes (env : MinerEnv) (nAdjustedTime : ℤ) (pindexPrev : uint256)
    (header : CPureBlockHeader) :
    (updateTime env nAdjustedTime pindexPrev header).hashPrevBlock = header.hashPrevBlock ∧
      (updateTime env nAdjustedTime pindexPrev header).hashMerkleRoot = header.hashMerkleRoot := by
  unfold updateTime
  dsimp only
  split_ifs <;> exact ⟨rfl, rfl⟩

theorem Apart.stepGoOn {nNow nAdjustedTime : ℤ} {thread : MinerThread}
    (h : Apart owner content s) (hthread : s.threads[t]? = some thread)
    (hown : KeepsToOwn env owner s (.goOn t nNow nAdjustedTime)) :
    Apart owner content (stepGoOn env s t nNow nAdjustedTime thread) := by
  have hhome := h.threads t thread hthread
  unfold Mining.stepGoOn
  obtain ⟨nExtraNonce, phase⟩ := thread
  split
  · rename_i pindexPrev pblock hashTarget nStart i hphase
    cases hphase
    obtain ⟨hle, hroot, -⟩ := hhome
    split_ifs with hi hstop
    · exact h
    · exact h.setThread trivial
    · obtain rfl : i = 500 := by omega
      obtain ⟨hnonce, hgoOn⟩ := not_or.1 hstop
      obtain ⟨htip, htime⟩ := not_or.1 hgoOn
      obtain ⟨hprev, hmerkle⟩ := updateTime_hashes env nAdjustedTime pindexPrev
        pblock.header
      refine h.setThread ⟨Nat.zero_le _, ?_, ?_⟩
      · dsimp only
        rw [hmerkle]
        exact hroot
      · dsimp only
        rw [hprev]
        exact hown _ _ _ _ _ hthread (UInt32.not_le.1 hnonce) (not_not.1 htip) (not_lt.1 htime)
  · exact h

theorem Apart.minerStep {e : MinerEvent}
    (hmeet : KeepsToOwn env owner s e ∧ RootTells env content s e) (h : Apart owner content s) :
    Apart owner content (minerStep env coinbaseScript s e) := by
  obtain ⟨hown, hroot⟩ := hmeet
  cases e with
  | changeTip tip => exact ⟨h.threads, h.hashed⟩
  | readTip t =>
    refine h.onThread fun thread _ => ?_
    unfold stepReadTip
    split
    · exact h.setThread trivial
    · exact h
  | createNewBlock t tmpl => exact h.onThread fun thread _ => h.stepCreateNewBlock tmpl thread
  | incrementExtraNonce t nNow =>
    exact h.onThread fun _ hthread => h.stepIncrementExtraNonce hthread hown hroot
  | getPoWHash t => exact h.onThread fun _ hthread => h.stepGetPoWHash hthread
  | goOn t nNow nAdjustedTime => exact h.onThread fun _ hthread => h.stepGoOn hthread hown
  | stop t => exact h.onThread fun _ _ => h.setThread trivial

theorem Apart.headersDisjoint (h : Apart owner content s) : HeadersDisjoint s := by
  intro entry hentry entry' hentry' heq
  rw [← h.hashed entry hentry, ← h.hashed entry' hentry', heq]

theorem Apart.coinbasesDiffer (h : Apart owner content s) : CoinbasesDiffer s := by
  intro t t' _ _ _ _ pblock pblock' _ _ _ _ _ _ hne hthread hthread' hprev htxs htime
  obtain ⟨-, hroot, hown⟩ := h.threads t _ hthread
  obtain ⟨-, hroot', hown'⟩ := h.threads t' _ hthread'
  -- one script in both coinbases would be one space with two owners
  have hscript : pblock.scriptSig ≠ pblock'.scriptSig := by
    intro heq
    rw [hprev, htxs, htime, heq] at hown
    exact hne (hown.symm.trans hown')
  refine ⟨fun heq => hscript ?_, fun heq => hscript ?_⟩
  · simp only [CBlockTemplate.scriptSig, heq]
  · rw [heq, hroot'] at hroot
    exact (congrArg Prod.fst hroot).symm

end

/-- Both threads take a template, set its extranonce and hash. -/
def startTogether (tmpl tmpl' : CBlockTemplate) : List MinerEvent :=
  [.readTip 0, .readTip 1, .createNewBlock 0 (some tmpl), .createNewBlock 1 (some tmpl'),
    .incrementExtraNonce 0 0, .incrementExtraNonce 1 0, .getPoWHash 0, .getPoWHash 1]

def emptyTemplate (coinbaseScript : CScript) (tip : uint256) (nTime : UInt32) : CBlockTemplate where
  header := ⟨4, tip, 0, nTime, 0, 0⟩
  coinbase := ⟨1, [⟨⟨0, 0xffffffff⟩, [], 0xffffffff, []⟩], [⟨0, coinbaseScript⟩], 0⟩
  txs := []
  vin_ne_nil := List.cons_ne_nil _ _

def sampleMiner : MinerEnv :=
  ⟨fun bytes => BitVec.ofNat 256 (leNat bytes), fun x y => 3 * x + y,
    CPureBlockHeader.hashMerkleRoot, fun _ => 7, fun _ => 0, fun _ => false, fun _ _ => 0⟩

end Mining

end Coinyecoin
