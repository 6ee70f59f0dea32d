import Coinyecoin.Stratum.Candidate

/-!
# The form of submissions

`HandleSubmit` tests the lengths of the strings of a submission and leaves the rest
to `ParseHex` and `strtoul`, which take blanks, signs and a `0x` and stop silently
at a character they do not know. So a submission can come as far as the comparison
with the share target without being hexadecimal.
-/

namespace Coinyecoin

namespace Stratum

open Foundation

variable {D : Type}

section

variable (env : StratumEnv D) (clock : Clock) (mapJobs : List StratumJob)
  (client : StratumClient D) (p : SubmitParams)

/-- No check turns the submission down before the comparison with the share target. -/
def Compared : Prop :=
  ∃ job, findJob mapJobs p.strJob = some job ∧
    (p.strEn2.length = 8 ∧ p.strTime.length = 8 ∧ p.strNonce.length = 8) ∧
    p.strKey ∉ client.setDupes ∧
    ∀ e, checkShare env clock job (client.remember p.strKey) (parseHex p.strEn2) p.nTime p.nNonce =
      .error e → e = .aboveTarget

end

section

variable {env : StratumEnv D} {clock : Clock} {mapJobs : List StratumJob}
  {client : StratumClient D} {p : SubmitParams}

/-- `Compared` is what `submit` does: such a submission is accepted or refused for its hash, every
other one for another reason. -/
theorem submit_of_compared (h : Compared env clock mapJobs client p) (id : UniValue) :
    submit env clock mapJobs client id p =
        ((client.remember p.strKey).refuse id .aboveTarget, none) ∨
      ∃ share, submit env clock mapJobs client id p =
        ((client.remember p.strKey).accept id, some share) := by
  obtain ⟨job, hjob, ⟨hen2, htime, hnonce⟩, hfresh, hcheck⟩ := h
  simp only [submit, hjob, hen2, htime, hnonce, ne_eq, not_true_eq_false, or_self, if_false,
    if_neg hfresh]
  cases hshare : checkShare env clock job (client.remember p.strKey) (parseHex p.strEn2) p.nTime
      p.nNonce with
  | error e => exact .inl (by rw [hcheck e hshare])
  | ok share => exact .inr ⟨share, rfl⟩

theorem submit_of_not_compared (h : ¬ Compared env clock mapJobs client p) (id : UniValue) :
    ∃ e client', e ≠ .aboveTarget ∧
      submit env clock mapJobs client id p = (StratumClient.refuse client' id e, none) := by
  unfold submit
  cases hjob : findJob mapJobs p.strJob with
  | none => exact ⟨.jobNotFound, client, nofun, rfl⟩
  | some job =>
    dsimp only
    split_ifs with hlen hdupe
    · exact ⟨.malformed, client, nofun, rfl⟩
    · exact ⟨.duplicate, client, nofun, rfl⟩
    · simp only [not_or, ne_eq, not_not] at hlen
      have hcheck : ∃ e, e ≠ .aboveTarget ∧ checkShare env clock job (client.remember p.strKey)
          (parseHex p.strEn2) p.nTime p.nNonce = .error e := by
        by_contra hnone
        refine h ⟨job, hjob, hlen, hdupe, fun e he => ?_⟩
        by_contra hne
        exact hnone ⟨e, hne, he⟩
      obtain ⟨e, hne, he⟩ := hcheck
      exact ⟨e, client.remember p.strKey, hne, by rw [he]⟩

end

section

def EightDigits (s : StdString) : Prop := s.length = 8 ∧ ∀ c ∈ s, IsHex c

instance : DecidablePred EightDigits := fun s =>
  @instDecidableAnd _ _ _ (List.decidableBAll IsHex s)

/-- The three numbers of a submission are hexadecimal. -/
structure Hexadecimal (p : SubmitParams) : Prop where
  strEn2 : EightDigits p.strEn2
  strTime : EightDigits p.strTime
  strNonce : EightDigits p.strNonce

def hexValue (s : StdString) : ℕ := s.foldl (fun n c => 16 * n + (hexDigit c).getD 0) 0

/-- A submission is hexadecimal and decodes to what it says. -/
structure WellFormed (p : SubmitParams) : Prop where
  hexadecimal : Hexadecimal p
  vchEn2 : (parseHex p.strEn2).length = 4
  nTime : p.nTime.toNat = hexValue p.strTime
  nNonce : p.nNonce.toNat = hexValue p.strNonce

variable {s : StdString}

theorem readDigits_of_isHex (hs : ∀ c ∈ s, IsHex c) (n : ℕ) :
    readDigits n s = s.foldl (fun n c => 16 * n + (hexDigit c).getD 0) n := by
  induction s generalizing n with
  | nil => rfl
  | cons c s ih =>
    obtain ⟨hc, hs⟩ := List.forall_mem_cons.1 hs
    obtain ⟨d, hd⟩ := Option.isSome_iff_exists.1 hc
    rw [readDigits, hd, List.foldl_cons, hd, Option.getD_some]
    exact ih hs _

theorem EightDigits.toNat_strtoul (hs : EightDigits s) :
    (UInt32.ofNat (strtoul s)).toNat = hexValue s := by
  have hlt := readDigits_lt 0 s
  rw [hs.1] at hlt
  rw [strtoul_of_isHex hs.2 (hs.1.trans_le (by decide)), UInt32.toNat_ofNat', hexValue,
    ← readDigits_of_isHex hs.2]
  exact Nat.mod_eq_of_lt hlt

theorem Hexadecimal.wellFormed {p : SubmitParams} (hp : Hexadecimal p) : WellFormed p where
  hexadecimal := hp
  vchEn2 := by
    have hlen := hp.strEn2.1
    have h := length_parseHex hp.strEn2.2 (by omega)
    omega
  nTime := hp.strTime.toNat_strtoul
  nNonce := hp.strNonce.toNat_strtoul

end

/-- A template that pays `2 ^ 32` to its first output: in its coinbase the number of outputs is
followed by four zeros. -/
def looseTemplate : CBlockTemplate where
  header := ⟨4, 7, 0, 0, 0x1e0ffff0, 0⟩
  coinbase := { sampleCoinbase with vout := [⟨4294967296, [0x52]⟩] }
  txs := []
  vin_ne_nil := by decide

section

variable (env : StratumEnv D)

def looseJob (id : StdString) : StratumJob :=
  { jobOfTemplate env looseTemplate 100 8 with id := id }

def looseClient : StratumClient D := { StratumClient.new env 1 0 with payoutScript := [0x52] }

/-- The script takes as many bytes as it was announced with, whatever was put in for the extranonce.
The rest is read on from there. -/
theorem unserialize_shifted {job : StratumJob} {payoutScript : CScript}
    {extranonce taken rest : Bytes} {nSequence nLockTime : UInt32} {vout : List CTxOut}
    (hlen : extranonce.length + taken.length = 8)
    (htail : writeUInt32 job.tmpl.nSequence ++ (writeVector writeTxOut
        (coinbaseOutputs job payoutScript) ++ writeUInt32 job.tmpl.coinbase.nLockTime) =
      taken ++ (writeUInt32 nSequence ++ (writeVector writeTxOut vout ++
        (writeUInt32 nLockTime ++ rest))))
    (hvout : vout.length ≤ MAX_SIZE ∧ ∀ txout ∈ vout, txout.scriptPubKey.length ≤ MAX_SIZE) :
    ∃ cbTx, unserializeTransaction true (coinb1 job ++ (extranonce ++ coinb2 job payoutScript)) =
      .ok (cbTx, rest) := by
  let script := CScript.pushInt64 job.nHeight.toInt64 ++ 20 :: (extranonce ++ COINBASE_TAG ++ taken)
  let cbTx : CTransaction :=
    ⟨job.tmpl.coinbase.nVersion, [⟨⟨0, 0xffffffff⟩, script, nSequence, []⟩], vout, nLockTime⟩
  have hheight := CScript.length_pushInt64 (toInt_natAbs_lt job.nHeight)
  have hscript : script.length = (coinbaseScript job EXTRANONCE_MAGIC).length := by
    have htag : COINBASE_TAG.length = 12 := by decide
    rw [length_coinbaseScript (by decide)]
    simp only [script, List.length_append, List.length_cons, htag]
    omega
  have hbytes : coinb1 job ++ (extranonce ++ coinb2 job payoutScript) =
      serializeTransaction true cbTx ++ rest := by
    rw [serializeTransaction_of_not_hasWitness rfl, coinb2, htail]
    simp only [cbTx, coinb1, writeVector, writeTxIn, writeBytes, hscript, List.flatMap_cons,
      List.flatMap_nil, List.append_nil, List.append_assoc, List.length_singleton]
    simp only [script, List.append_assoc, List.cons_append, List.nil_append]
  have hlimits : cbTx.WithinLimits := by
    have hmax : 100 ≤ MAX_SIZE := by decide
    rw [length_coinbaseScript (by decide)] at hscript
    refine ⟨hmax.trans' (by decide : 1 ≤ 100), hvout.1, fun txin htxin => ?_, hvout.2⟩
    rw [List.mem_singleton.1 htxin]
    change script.length ≤ MAX_SIZE
    omega
  rw [hbytes]
  exact ⟨cbTx, unserializeTransaction_reads (List.cons_ne_nil _ _) hlimits
    (CTransaction.witnessWithinLimits_of_not_hasWitness rfl) rest⟩

/-- What follows the extranonce in the coinbase of `looseTemplate`, as it is read if a number of
bytes is missing before it. -/
theorem looseTail_shifted {missing : ℕ} (hmissing : missing ≤ 4) :
    ∃ taken nSequence vout nLockTime rest, taken.length = missing ∧
      (vout.length ≤ MAX_SIZE ∧ ∀ txout ∈ vout, txout.scriptPubKey.length ≤ MAX_SIZE) ∧
      writeUInt32 looseTemplate.nSequence ++ (writeVector writeTxOut looseTemplate.coinbase.vout ++
          writeUInt32 looseTemplate.coinbase.nLockTime) =
        taken ++ (writeUInt32 nSequence ++ (writeVector writeTxOut vout ++
          (writeUInt32 nLockTime ++ rest))) := by
  match missing with
  | 0 => exact ⟨[], 0xffffffff, [⟨4294967296, [0x52]⟩], 0, [], by decide⟩
  | 1 => exact ⟨[255], 0x1ffffff, [], 0x1000000, [0, 0, 0, 1, 0x52, 0, 0, 0, 0], by decide⟩
  | 2 => exact ⟨[255, 255], 0x1ffff, [], 0x10000, [0, 0, 1, 0x52, 0, 0, 0, 0], by decide⟩
  | 3 => exact ⟨[255, 255, 255], 0x1ff, [], 0x100, [0, 1, 0x52, 0, 0, 0, 0], by decide⟩
  | 4 => exact ⟨[255, 255, 255, 255], 1, [], 1, [1, 0x52, 0, 0, 0, 0], by decide⟩

/-- With too few bytes of extranonce the script takes over bytes of the sequence number, and the
coinbase is read as one without outputs. -/
theorem rebuildCoinbase_loose (id strKey : StdString) {vchEn2 : Bytes} (hlen : vchEn2.length ≤ 4) :
    ∃ cbTx, rebuildCoinbase (looseJob env id) ((looseClient env).remember strKey) vchEn2 =
      .ok cbTx := by
  obtain ⟨taken, nSequence, vout, nLockTime, rest, htaken, hvout, htail⟩ :=
    looseTail_shifted (Nat.sub_le 4 vchEn2.length)
  have hextra : (extraNonce1Bytes 1 ++ vchEn2).length + taken.length = 8 := by
    rw [List.length_append, htaken]
    change 4 + _ + _ = 8
    omega
  have hread : ∃ cbTx, unserializeTransaction true (coinb1 (looseJob env id) ++
      ((extraNonce1Bytes 1 ++ vchEn2) ++ coinb2 (looseJob env id) [0x52])) = .ok (cbTx, rest) :=
    unserialize_shifted hextra htail hvout
  obtain ⟨cbTx, hread⟩ := hread
  rw [List.append_assoc] at hread
  refine ⟨cbTx, ?_⟩
  have hparts : buildCoinbaseParts (looseJob env id) ((looseClient env).remember strKey).payoutScript =
      some (coinb1 (looseJob env id), coinb2 (looseJob env id) [0x52]) :=
    (buildCoinbaseParts_eq _ _).trans (if_neg Bool.false_ne_true)
  have hnonce : ((looseClient env).remember strKey).nExtraNonce1 = 1 := rfl
  rw [rebuildCoinbase, hparts, hnonce]
  simp only [hread]

theorem compared_loose {p : SubmitParams}
    (hlen : p.strEn2.length = 8 ∧ p.strTime.length = 8 ∧ p.strNonce.length = 8) :
    Compared env ⟨0, 2 ^ 32⟩ [looseJob env p.strJob] (looseClient env) p := by
  have hbytes := length_parseHex_le p.strEn2
  obtain ⟨cbTx, hcb⟩ := rebuildCoinbase_loose env p.strJob p.strKey
    (by omega : (parseHex p.strEn2).length ≤ 4)
  have hlt := p.nTime.toNat_lt
  have htime : ¬ (p.nTime < (looseJob env p.strJob).nTime ∨
      (p.nTime.toNat : ℤ) > 2 ^ 32 + 2 * 60 * 60) := by
    rintro (h | h)
    · exact UInt32.not_lt_zero h
    · omega
  refine ⟨looseJob env p.strJob, by simp [findJob, looseJob], hlen, List.not_mem_nil, ?_⟩
  intro e he
  rw [checkShare, if_neg htime, hcb, ok_bind] at he
  dsimp only at he
  split at he
  · exact nomatch he
  · exact (Except.error.inj he).symm

end

/-- What comes as far as the comparison, for whatever client, jobs and time, is well formed exactly
if the parameters are hexadecimal where their lengths are right. -/
theorem compared_wellFormed_iff (env : StratumEnv D) (params : List UniValue) :
    (∀ clock mapJobs client p, 5 ≤ params.length → getSubmitParams params = .ok p →
        Compared env clock mapJobs client p → WellFormed p) ↔
      ∀ p, 5 ≤ params.length → getSubmitParams params = .ok p →
        p.strEn2.length = 8 ∧ p.strTime.length = 8 ∧ p.strNonce.length = 8 →
          ∀ c ∈ p.strEn2 ++ p.strTime ++ p.strNonce, IsHex c := by
  constructor
  · intro h p hparams hp hlen
    have hhex := (h _ _ _ p hparams hp (compared_loose env hlen)).hexadecimal
    simp only [List.forall_mem_append]
    exact ⟨⟨hhex.strEn2.2, hhex.strTime.2⟩, hhex.strNonce.2⟩
  · rintro h clock mapJobs client p hparams hp ⟨_, -, ⟨hen2, htime, hnonce⟩, -⟩
    have hhex := h p hparams hp ⟨hen2, htime, hnonce⟩
    simp only [List.forall_mem_append] at hhex
    have hdigits : Hexadecimal p := ⟨⟨hen2, hhex.1.1⟩, ⟨htime, hhex.1.2⟩, ⟨hnonce, hhex.2⟩⟩
    exact hdigits.wellFormed

/-- Three bytes of extranonce and no digit of a nonce are compared with the target. -/
theorem malformed_submission_compared :
    ∃ p, getSubmitParams [.str (str "w"), .str (str "1"), .str (str "000000zz"),
        .str (str "00000001"), .str (str "zzzzzzzz")] = .ok p ∧
      Compared sampleEnv ⟨0, 2 ^ 32⟩ [looseJob sampleEnv (str "1")] (looseClient sampleEnv) p ∧
      ¬ EightDigits p.strEn2 ∧ ¬ EightDigits p.strNonce ∧ (parseHex p.strEn2).length = 3 ∧
      ¬ WellFormed p := by
  have hshort : (parseHex (str "000000zz")).length = 3 := by decide
  refine ⟨⟨str "1", str "000000zz", str "00000001", str "zzzzzzzz"⟩, rfl,
    compared_loose sampleEnv (by decide), by decide, by decide, hshort, fun h => ?_⟩
  exact absurd (hshort.symm.trans h.vchEn2) (by decide)

end Stratum

end Coinyecoin
