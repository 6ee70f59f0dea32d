import Coinyecoin.Foundation.HashFold
import Coinyecoin.Stratum.Submit

/-!
# What a header is made of

The strings of a submission in lower-case digits are determined by what they
decode to. A header determines the coinbase it was made with, unless the hash
function has a collision among the strings hashed for it, and the coinbase
determines the extranonces and, up to the payout script, the job.
-/

namespace Coinyecoin

namespace Stratum

open Foundation List

/-- Eight lower-case digits. -/
structure IsHex8 (s : StdString) : Prop where
  length : s.length = 8
  lower : ∀ c ∈ s, IsLowerHex c

namespace IsHex8

variable {s t : StdString}

section

variable (hs : IsHex8 s)
include hs

theorem digits : ∃ ds : List ℕ, (∀ d ∈ ds, d < 16) ∧ ds.length = 8 ∧ s = ds.map hexmap := by
  obtain ⟨ds, hds, rfl⟩ := exists_digits hs.lower
  exact ⟨ds, hds, by simpa using hs.length, rfl⟩

theorem isHex : ∀ c ∈ s, IsHex c := fun c hc => (hs.lower c hc).isHex

theorem length_parseHex : (parseHex s).length = 4 := by
  have hlen := hs.length
  have h := Coinyecoin.length_parseHex hs.isHex (by omega)
  omega

theorem eq_of_parseHex (ht : IsHex8 t) (h : parseHex s = parseHex t) : s = t := by
  obtain ⟨ds, hds, hlen, rfl⟩ := hs.digits
  obtain ⟨es, hes, hlen', rfl⟩ := ht.digits
  rw [eq_of_parseHex_eq hds hes (by omega) (by omega) h]

theorem toNat_strtoul : (UInt32.ofNat (strtoul s)).toNat = readDigits 0 s := by
  have hlt := readDigits_lt 0 s
  rw [hs.length] at hlt
  rw [strtoul_of_isHex hs.isHex (hs.length.trans_le (by decide)), UInt32.toNat_ofNat']
  exact Nat.mod_eq_of_lt hlt

theorem eq_of_strtoul (ht : IsHex8 t)
    (h : UInt32.ofNat (strtoul s) = UInt32.ofNat (strtoul t)) : s = t := by
  refine eq_of_readDigits_eq hs.lower ht.lower (hs.length.trans ht.length.symm) ?_
  rw [← hs.toNat_strtoul, ← ht.toNat_strtoul, h]

end

end IsHex8

/-- The strings that a well-behaved miner submits. -/
structure SubmitParams.IsHex (p : SubmitParams) : Prop where
  strEn2 : IsHex8 p.strEn2
  strTime : IsHex8 p.strTime
  strNonce : IsHex8 p.strNonce

theorem SubmitParams.IsHex.eq_of_decoded {p q : SubmitParams} (hp : p.IsHex) (hq : q.IsHex)
    (hjob : p.strJob = q.strJob) (hen2 : parseHex p.strEn2 = parseHex q.strEn2)
    (htime : p.nTime = q.nTime) (hnonce : p.nNonce = q.nNonce) : p = q := by
  obtain ⟨strJob, strEn2, strTime, strNonce⟩ := p
  obtain ⟨strJob', strEn2', strTime', strNonce'⟩ := q
  cases hjob
  cases hp.strEn2.eq_of_parseHex hq.strEn2 hen2
  cases hp.strTime.eq_of_strtoul hq.strTime htime
  cases hp.strNonce.eq_of_strtoul hq.strNonce hnonce
  rfl

section

/-- The two jobs hand out the same work: they agree in all that enters a header,
up to the payout script. They may differ in their id and in the earliest time
they allow. -/
structure SameWork (job job' : StratumJob) : Prop where
  hashPrevBlock : job.hashPrevBlock = job'.hashPrevBlock
  nVersion : job.nVersion = job'.nVersion
  nBits : job.nBits = job'.nBits
  vMerkleSteps : job.vMerkleSteps = job'.vMerkleSteps
  coinb1 : coinb1 job = coinb1 job'
  coinb2 : coinb2 job [] = coinb2 job' []

instance (job job' : StratumJob) : Decidable (SameWork job job') :=
  decidable_of_iff (job.hashPrevBlock = job'.hashPrevBlock ∧ job.nVersion = job'.nVersion ∧
      job.nBits = job'.nBits ∧ job.vMerkleSteps = job'.vMerkleSteps ∧
      coinb1 job = coinb1 job' ∧ coinb2 job [] = coinb2 job' [])
    ⟨fun ⟨hprev, hversion, hbits, hsteps, h1, h2⟩ => ⟨hprev, hversion, hbits, hsteps, h1, h2⟩,
      fun ⟨hprev, hversion, hbits, hsteps, h1, h2⟩ => ⟨hprev, hversion, hbits, hsteps, h1, h2⟩⟩

variable {job job' : StratumJob} {script script' : CScript} {extranonce extranonce' : Bytes}

theorem extraNonce1Bytes_injective : Function.Injective extraNonce1Bytes := by
  intro n m h
  rw [extraNonce1Bytes_eq, extraNonce1Bytes_eq, reverse_inj] at h
  have hn : leNat (leBytes 4 n.toNat) = n.toNat := leNat_leBytes n.toNat_lt
  have hm : leNat (leBytes 4 m.toNat) = m.toNat := leNat_leBytes m.toNat_lt
  apply UInt32.toNat_inj.1
  rw [← hn, h, hm]

theorem coinbaseOutputs_nil_eq (h : coinbaseOutputs job script = coinbaseOutputs job' script') :
    coinbaseOutputs job [] = coinbaseOutputs job' [] := by
  unfold coinbaseOutputs at h ⊢
  cases hvout : job.tmpl.coinbase.vout with
  | nil =>
    cases hvout' : job'.tmpl.coinbase.vout with
    | nil => rfl
    | cons txout' vout' =>
      rw [hvout, hvout'] at h
      exact nomatch h
  | cons txout vout =>
    cases hvout' : job'.tmpl.coinbase.vout with
    | nil =>
      rw [hvout, hvout'] at h
      exact nomatch h
    | cons txout' vout' =>
      rw [hvout, hvout'] at h
      simp only [List.cons.injEq, CTxOut.mk.injEq] at h ⊢
      exact ⟨⟨h.1.1, trivial⟩, h.2⟩

theorem coinbaseTx_inj (hlen : extranonce.length = 8) (hlen' : extranonce'.length = 8)
    (h : coinbaseTx job script extranonce = coinbaseTx job' script' extranonce') :
    coinb1 job = coinb1 job' ∧ extranonce = extranonce' ∧ coinb2 job [] = coinb2 job' [] := by
  simp only [coinbaseTx, CTransaction.mk.injEq, List.cons.injEq, CTxIn.mk.injEq, and_true,
    true_and] at h
  obtain ⟨hversion, ⟨hscript, hsequence⟩, hvout, hlock⟩ := h
  rw [coinbaseScript_eq hlen, coinbaseScript_eq hlen'] at hscript
  obtain ⟨hheight, htail⟩ := append_inj' hscript (by simp [hlen, hlen'])
  have hextra := (append_inj (List.cons.inj htail).2 (hlen.trans hlen'.symm)).1
  refine ⟨?_, hextra, ?_⟩
  · have hmagic : EXTRANONCE_MAGIC.length = 8 := by decide
    simp only [coinb1, hversion, hheight, length_coinbaseScript hmagic]
  · rw [coinb2, coinb2, hsequence, hlock, coinbaseOutputs_nil_eq hvout]

theorem serialize_coinbaseTx_false (job : StratumJob) (script : CScript) (extranonce : Bytes) :
    serializeTransaction false (coinbaseTx job script extranonce) =
      serializeTransaction true (coinbaseTx job script extranonce) := by
  have hwit := hasWitness_coinbaseTx job script extranonce
  rw [serializeTransaction_of_not_hasWitness hwit, serializeTransaction_of_not_hasWitness hwit]

theorem lt_length_serialize_coinbaseTx (job : StratumJob) (script : CScript)
    (hlen : extranonce.length = 8) :
    64 < (serializeTransaction false (coinbaseTx job script extranonce)).length := by
  have htag : COINBASE_TAG.length = 12 := by decide
  rw [serialize_coinbaseTx_false, serialize_coinbaseTx hlen]
  simp only [coinb1, coinb2, length_append, hlen, htag, writeInt32, writeUInt32, writeUint256,
    length_leBytes, length_singleton]
  omega

end

section

variable {D : Type} {env : StratumEnv D}

def pairBytes (x y : uint256) : Bytes := writeUint256 x ++ writeUint256 y

/-- The strings that are hashed to get the merkle root of a share. -/
def Share.hashInputs (env : StratumEnv D) (share : Share) : List Bytes :=
  HashFold.inputs env.hash pairBytes (serializeTransaction false share.cbTx)
    share.job.vMerkleSteps

structure Share.MadeOf (env : StratumEnv D) (share : Share) (nExtraNonce1 : UInt32)
    (p : SubmitParams) : Prop where
  isHex : p.IsHex
  strJob : p.strJob = share.job.id
  vchEn2 : share.vchEn2 = parseHex p.strEn2
  cbTx : ∃ script, share.cbTx =
    coinbaseTx share.job script (extraNonce1Bytes nExtraNonce1 ++ share.vchEn2)
  readable : unserializeTransaction true (serializeTransaction true share.cbTx) =
    .ok (share.cbTx, [])
  header : share.header = submitHeader env share.job share.cbTx p.nTime p.nNonce

theorem pairBytes_injective : Function.Injective2 pairBytes := by
  intro x x' y y' h
  obtain ⟨hx, hy⟩ := append_inj h (by simp [writeUint256])
  exact ⟨writeUint256_injective hx, writeUint256_injective hy⟩

namespace Share.MadeOf

variable {share share' : Share} {n n' : UInt32} {p p' : SubmitParams}

theorem of_accepts {clock : Clock} {mapJobs : List StratumJob} {client : StratumClient D}
    (h : Accepts env clock mapJobs client p share)
    (hlower : ∀ c ∈ p.strEn2 ++ p.strTime ++ p.strNonce, IsLowerHex c) :
    share.MadeOf env client.nExtraNonce1 p ∧ share.job ∈ mapJobs := by
  obtain ⟨⟨job, hfind, hcheck⟩, ⟨hen2, htime, hnonce⟩, -⟩ := h
  have hhex : p.IsHex :=
    ⟨⟨hen2, fun c hc => hlower c (by simp [hc])⟩, ⟨htime, fun c hc => hlower c (by simp [hc])⟩,
      ⟨hnonce, fun c hc => hlower c (by simp [hc])⟩⟩
  obtain ⟨hcb, rfl, hvch, hheader, -⟩ := checkShare_eq_ok hcheck
  obtain ⟨hcbTx, hread⟩ := rebuildCoinbase_eq_ok hhex.strEn2.length_parseHex hcb
  have hid : share.job.id = p.strJob := by simpa using find?_some hfind
  rw [← hvch] at hcbTx
  exact ⟨⟨hhex, hid.symm, hvch, ⟨_, hcbTx⟩, hread, hheader⟩, mem_of_find?_eq_some hfind⟩

section

variable (h : share.MadeOf env n p)
include h

theorem length_extranonce : (extraNonce1Bytes n ++ share.vchEn2).length = 8 := by
  rw [length_append, h.vchEn2, h.isHex.strEn2.length_parseHex]
  rfl

theorem ne_pairBytes (x y : uint256) : serializeTransaction false share.cbTx ≠ pairBytes x y := by
  obtain ⟨script, hcb⟩ := h.cbTx
  intro heq
  have hlt := lt_length_serialize_coinbaseTx share.job script h.length_extranonce
  rw [← hcb, heq] at hlt
  simp [pairBytes, writeUint256] at hlt

theorem sameWork (h' : share'.MadeOf env n' p')
    (hpair : ∀ x y, env.hashPair x y = env.hash (pairBytes x y)) {S : List Bytes}
    (hinj : ∀ x ∈ S, ∀ y ∈ S, env.hash x = env.hash y → x = y)
    (hS : ∀ x ∈ share.hashInputs env, x ∈ S) (hS' : ∀ x ∈ share'.hashInputs env, x ∈ S)
    (heq : share.header = share'.header) :
    SameWork share.job share'.job ∧ n = n' ∧ share.vchEn2 = share'.vchEn2 := by
  have hfold (digest : uint256) (vSteps : List uint256) :
      merkleRootFromSteps env.hashPair digest vSteps =
        HashFold.fold env.hash pairBytes digest vSteps := by
    rw [merkleRootFromSteps, funext₂ hpair]
    rfl
  rw [h.header, h'.header] at heq
  simp only [submitHeader, CPureBlockHeader.mk.injEq, hfold, CTransaction.getHash] at heq
  obtain ⟨hversion, hprev, hroot, -, hbits, -⟩ := heq
  obtain ⟨hbytes, hsteps⟩ :=
    HashFold.fold_injective pairBytes_injective hinj hS hS' h.ne_pairBytes h'.ne_pairBytes hroot
  obtain ⟨script, hcb⟩ := h.cbTx
  obtain ⟨script', hcb'⟩ := h'.cbTx
  -- both coinbases are read back from the same bytes
  have htx : share.cbTx = share'.cbTx := by
    have hread := h.readable
    rw [hcb, hcb', serialize_coinbaseTx_false, serialize_coinbaseTx_false, ← hcb, ← hcb'] at hbytes
    rw [hbytes, h'.readable] at hread
    exact (congrArg Prod.fst (Except.ok.inj hread)).symm
  rw [hcb, hcb'] at htx
  obtain ⟨hcoinb1, hextra, hcoinb2⟩ :=
    coinbaseTx_inj h.length_extranonce h'.length_extranonce htx
  obtain ⟨hen1, hen2⟩ := append_inj hextra rfl
  exact ⟨⟨hprev, hversion, hbits, hsteps, hcoinb1, hcoinb2⟩, extraNonce1Bytes_injective hen1, hen2⟩

end

end Share.MadeOf

end

end Stratum

end Coinyecoin
