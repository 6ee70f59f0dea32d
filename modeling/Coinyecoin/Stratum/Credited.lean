import Coinyecoin.Stratum.Candidate
import Coinyecoin.Stratum.Registry
import Coinyecoin.Stratum.Work

/-!
# No work is credited twice

The server remembers the strings of each submission, and refuses those it has
seen. This keeps work from being credited twice as long as the strings are in
lower-case digits, no client fills its set of keys, no two jobs hand out the same
work, and the counters do not wrap.
-/

namespace Coinyecoin

namespace Stratum

open Foundation List

variable {entry : ℕ × Share} {D : Type} {env : StratumEnv D} {s s' : Server D} {e : Event}

section

variable {c : ℕ} {conn conn' : Connection D}

theorem ClientMove.nExtraNonce1 (h : ClientMove env s c conn e conn') :
    conn'.client.nExtraNonce1 = conn.client.nExtraNonce1 := by
  rcases h.line_or_unchanged with ⟨strLine, clock, handled, -, hhandled, heq⟩ | hsame
  · rw [heq]
    exact (handleLine_keeps hhandled).1.nExtraNonce1
  · exact hsame.nExtraNonce1

theorem ClientMove.setDupes (h : ClientMove env s c conn e conn') :
    conn'.client.setDupes = conn.client.setDupes ∨
      ∃ strLine clock p, e = .line c strLine clock ∧ submittedParams env strLine = some p ∧
        conn'.client.setDupes = (conn.client.remember p.strKey).setDupes := by
  rcases h.line_or_unchanged with ⟨strLine, clock, handled, he, hhandled, heq⟩ | hsame
  · rw [heq]
    rcases handleLine_dupes hhandled with ⟨p, hp, hkey⟩ | ⟨hkey, -⟩
    · exact .inr ⟨strLine, clock, p, he, hp, hkey⟩
    · exact .inl hkey
  · exact .inl hsame.setDupes

/-- No two connections have the same first extranonce. -/
structure Extranonces (s : Server D) : Prop where
  le : ∀ (c : ℕ) (conn : Connection D), s.clients[c]? = some conn →
    conn.client.nExtraNonce1.toNat ≤ s.nClientCounter.toNat
  distinct : ∀ (c c' : ℕ) (conn conn' : Connection D), s.clients[c]? = some conn →
    s.clients[c']? = some conn' → conn.client.nExtraNonce1 = conn'.client.nExtraNonce1 → c = c'

theorem Extranonces.init (tip : uint256) : Extranonces (Server.init tip : Server D) where
  le := fun _ _ h => nomatch h
  distinct := fun _ _ _ _ h => nomatch h

theorem Effect.nClientCounter_le (h : Effect env s e s')
    (hcounter : ∀ nNow, e = .connect nNow → s.nClientCounter ≠ 0xffffffff) :
    s.nClientCounter.toNat ≤ s'.nClientCounter.toNat := by
  cases h with
  | connect nNow => exact (Nat.le_succ _).trans_eq (toNat_succ (hcounter nNow rfl)).symm
  | _ => exact le_rfl

theorem Extranonces.effect (hs : Extranonces s) (h : Effect env s e s')
    (hcounter : ∀ nNow, e = .connect nNow → s.nClientCounter ≠ 0xffffffff) : Extranonces s' := by
  refine ⟨fun c conn hconn => ?_, fun c c' conn conn' hconn hconn' heq => ?_⟩
  · rcases h.client hconn with ⟨nNow, -, -, hnew, rfl⟩ | ⟨conn₀, hconn₀, hmove⟩
    · rw [hnew]
      exact le_rfl
    · rw [hmove.nExtraNonce1]
      exact (hs.le c conn₀ hconn₀).trans (h.nClientCounter_le hcounter)
  · have hfresh (nNow : ℤ) (he : e = .connect nNow) (c : ℕ) (conn : Connection D)
        (hconn : s.clients[c]? = some conn) :
        conn.client.nExtraNonce1 ≠ s.nClientCounter + 1 := by
      intro hnew
      have hle := hs.le c conn hconn
      rw [hnew, toNat_succ (hcounter nNow he)] at hle
      omega
    rcases h.client hconn with ⟨nNow, he, rfl, -, rfl⟩ | ⟨conn₀, hconn₀, hmove⟩ <;>
      rcases h.client hconn' with ⟨nNow', he', rfl, -, rfl⟩ | ⟨conn₁, hconn₁, hmove'⟩
    · rfl
    · rw [hmove'.nExtraNonce1] at heq
      exact absurd heq.symm (hfresh nNow he _ conn₁ hconn₁)
    · rw [hmove.nExtraNonce1] at heq
      exact absurd heq (hfresh nNow' he' _ conn₀ hconn₀)
    · rw [hmove.nExtraNonce1, hmove'.nExtraNonce1] at heq
      exact hs.distinct c c' conn₀ conn₁ hconn₀ hconn₁ heq

end

def Share.SameSubmission (share share' : Share) : Prop :=
  share.job.id = share'.job.id ∧ share.vchEn2 = share'.vchEn2 ∧
    share.header.nTime = share'.header.nTime ∧ share.header.nNonce = share'.header.nNonce

theorem Share.MadeOf.eq_of_sameSubmission {share share' : Share} {n n' : UInt32}
    {p p' : SubmitParams} (h : share.MadeOf env n p) (h' : share'.MadeOf env n' p')
    (hsame : share.SameSubmission share') : p = p' := by
  obtain ⟨hid, hen2, htime, hnonce⟩ := hsame
  rw [h.header, h'.header] at htime hnonce
  rw [h.vchEn2, h'.vchEn2] at hen2
  rw [← h.strJob, ← h'.strJob] at hid
  exact h.isHex.eq_of_decoded h'.isHex hid hen2 htime hnonce

/-- The job that is about to be registered. -/
def JobThread.measured? : JobThread → Option StratumJob
  | .measured job => some job
  | _ => none

/-- The steps under which no work is credited twice. A line that submits has its
values in lower-case digits and finds room in the set of keys; a new job hands out
work that no job before it did; no counter is at its maximum. -/
def CreditsOnce (env : StratumEnv D) (s : Server D) : Event → Prop
  | .line c strLine _ => ∀ conn ∈ s.clients[c]?, ∀ p ∈ submittedParams env strLine,
      conn.client.setDupes.length < 5000 ∧
        ∀ ch ∈ p.strEn2 ++ p.strTime ++ p.strNonce, IsLowerHex ch
  | .connect _ => s.nClientCounter ≠ 0xffffffff
  | .registerJob => s.nJobCounter ≠ 0xffffffff ∧
      ∀ job ∈ s.jobThread.measured?, ∀ old ∈ s.created, ¬ SameWork job old
  | _ => True

instance (env : StratumEnv D) (s : Server D) : DecidablePred (CreditsOnce env s)
  | .line c strLine _ => inferInstanceAs (Decidable (∀ conn ∈ s.clients[c]?,
      ∀ p ∈ submittedParams env strLine, conn.client.setDupes.length < 5000 ∧
        ∀ ch ∈ p.strEn2 ++ p.strTime ++ p.strNonce, IsLowerHex ch))
  | .connect _ => inferInstanceAs (Decidable (s.nClientCounter ≠ 0xffffffff))
  | .registerJob => inferInstanceAs (Decidable (s.nJobCounter ≠ 0xffffffff ∧
      ∀ job ∈ s.jobThread.measured?, ∀ old ∈ s.created, ¬ SameWork job old))
  | .disconnect _ | .subscription _ | .vardiff _ _ | .changeTip _ | .buildTemplate _ _
  | .readHeight | .startBroadcast _ | .buildNotify | .sendNotify => isTrue trivial

/-- The share is from a registered job and from one of the clients, which still
has its key. -/
def Credited (env : StratumEnv D) (s : Server D) (entry : ℕ × Share) : Prop :=
  entry.2.job ∈ s.created ∧ ∃ conn p, s.clients[entry.1]? = some conn ∧
    entry.2.MadeOf env conn.client.nExtraNonce1 p ∧ p.strKey ∈ conn.client.setDupes

structure Ledger (env : StratumEnv D) (s : Server D) : Prop where
  registry : Registry s
  extranonces : Extranonces s
  work : ∀ job ∈ s.created, ∀ job' ∈ s.created, SameWork job job' → job = job'
  credited : ∀ entry ∈ s.shares, Credited env s entry
  once : s.shares.Pairwise fun entry entry' =>
    entry.1 = entry'.1 → ¬ entry.2.SameSubmission entry'.2

theorem setDupes_remember {client : StratumClient D} (hlen : client.setDupes.length < 5000)
    (strKey : StdString) : (client.remember strKey).setDupes = strKey :: client.setDupes := by
  have hle : ¬ (strKey :: client.setDupes).length > 5000 := by
    rw [length_cons]
    omega
  exact if_neg hle

theorem Credited.effect (hentry : Credited env s entry)
    (h : Effect env s e s') (hok : CreditsOnce env s e) : Credited env s' entry := by
  obtain ⟨hjob, conn, p, hconn, hmade, hkey⟩ := hentry
  obtain ⟨conn', hconn', hmove⟩ := h.client_move hconn
  refine ⟨h.mem_created hjob, conn', p, hconn', hmove.nExtraNonce1 ▸ hmade, ?_⟩
  rcases hmove.setDupes with heq | ⟨strLine, clock, q, rfl, hq, heq⟩
  · rw [heq]
    exact hkey
  · rw [heq, setDupes_remember (hok conn hconn q hq).1]
    exact mem_cons_of_mem _ hkey

theorem Effect.shares (h : Effect env s e s') :
    s'.shares = s.shares ∨ ∃ c strLine clock conn share p, e = .line c strLine clock ∧
      s.clients[c]? = some conn ∧ submittedParams env strLine = some p ∧
      Accepts env clock s.mapJobs conn.client p share ∧ s'.shares = s.shares ++ [(c, share)] ∧
      ∃ conn', s'.clients[c]? = some conn' ∧
        conn'.client.setDupes = (conn.client.remember p.strKey).setDupes := by
  cases h with
  | line c strLine clock conn handled hconn hidle hhandled =>
    cases hshare : handled.share with
    | none => exact .inl (by simp)
    | some share =>
      obtain ⟨p, hp, haccepts⟩ := handleLine_share hhandled hshare
      refine .inr ⟨c, strLine, clock, conn, share, p, rfl, hconn, hp, haccepts, rfl,
        conn.handled handled, ?_, ?_⟩
      · exact List.getElem?_set_self (List.getElem?_eq_some_iff.1 hconn).1
      · rcases handleLine_dupes hhandled with ⟨q, hq, hkey⟩ | ⟨-, hnone⟩
        · cases hp.symm.trans hq
          exact hkey
        · exact nomatch hnone.symm.trans hshare
  | _ => exact .inl rfl

namespace Ledger

theorem init (tip : uint256) : Ledger env (Server.init tip : Server D) where
  registry := Registry.init tip
  extranonces := Extranonces.init tip
  work := fun _ h => nomatch h
  credited := fun _ h => nomatch h
  once := List.Pairwise.nil

theorem work_effect (hs : Ledger env s) (h : Effect env s e s') (hok : CreditsOnce env s e) :
    ∀ job ∈ s'.created, ∀ job' ∈ s'.created, SameWork job job' → job = job' := by
  cases h with
  | registerJob job hthread =>
    intro job₁ hmem₁ job₂ hmem₂ hsame
    have hnew := hok.2 job (by rw [hthread]; rfl)
    rcases mem_append.1 hmem₁ with hmem₁ | hmem₁ <;>
      rcases mem_append.1 hmem₂ with hmem₂ | hmem₂
    · exact hs.work job₁ hmem₁ job₂ hmem₂ hsame
    · obtain rfl := mem_singleton.1 hmem₂
      obtain ⟨hprev, hversion, hbits, hsteps, hcoinb1, hcoinb2⟩ := hsame
      exact absurd ⟨hprev.symm, hversion.symm, hbits.symm, hsteps.symm, hcoinb1.symm,
        hcoinb2.symm⟩ (hnew job₁ hmem₁)
    · obtain rfl := mem_singleton.1 hmem₁
      obtain ⟨hprev, hversion, hbits, hsteps, hcoinb1, hcoinb2⟩ := hsame
      exact absurd ⟨hprev, hversion, hbits, hsteps, hcoinb1, hcoinb2⟩ (hnew job₂ hmem₂)
    · rw [mem_singleton.1 hmem₁, mem_singleton.1 hmem₂]
  | _ => exact hs.work

theorem not_sameSubmission (hs : Ledger env s) {clock : Clock} {c : ℕ} {conn : Connection D}
    (hconn : s.clients[c]? = some conn) {p : SubmitParams} {share : Share}
    (haccepts : Accepts env clock s.mapJobs conn.client p share)
    (hmade : share.MadeOf env conn.client.nExtraNonce1 p)
    (hentry : entry ∈ s.shares) (hc : entry.1 = c) : ¬ entry.2.SameSubmission share := by
  intro hsame
  obtain ⟨-, conn', q, hconn', hmade', hkey⟩ := hs.credited entry hentry
  rw [hc] at hconn'
  cases hconn.symm.trans hconn'
  rw [hmade'.eq_of_sameSubmission hmade hsame] at hkey
  exact haccepts.fresh hkey

theorem effect (hs : Ledger env s) (h : Effect env s e s') (hok : CreditsOnce env s e) :
    Ledger env s' := by
  have hregistry : Registry s' := hs.registry.effect h (by rintro rfl; exact hok.1)
  have hextra : Extranonces s' := hs.extranonces.effect h (by rintro nNow rfl; exact hok)
  refine ⟨hregistry, hextra, hs.work_effect h hok, ?_, ?_⟩
  · intro entry hentry
    rcases h.shares with hshares | ⟨c, strLine, clock, conn, share, p, rfl, hconn, hp, haccepts,
        hshares, conn', hconn', hkeys⟩
    · rw [hshares] at hentry
      exact (hs.credited entry hentry).effect h hok
    · rw [hshares, mem_append, mem_singleton] at hentry
      rcases hentry with hentry | rfl
      · exact (hs.credited entry hentry).effect h hok
      · obtain ⟨hroom, hlower⟩ := hok conn hconn p hp
        obtain ⟨hmade, hjob⟩ := Share.MadeOf.of_accepts haccepts hlower
        obtain ⟨conn₁, hconn₁, hmove⟩ := h.client_move hconn
        cases hconn'.symm.trans hconn₁
        refine ⟨h.mem_created (hs.registry.mapJobs _ hjob), conn', p, hconn',
          hmove.nExtraNonce1 ▸ hmade, ?_⟩
        rw [hkeys, setDupes_remember hroom]
        exact mem_cons_self
  · rcases h.shares with hshares | ⟨c, strLine, clock, conn, share, p, rfl, hconn, hp, haccepts,
        hshares, -⟩
    · rw [hshares]
      exact hs.once
    · rw [hshares, pairwise_append]
      obtain ⟨-, hlower⟩ := hok conn hconn p hp
      have hmade := (Share.MadeOf.of_accepts haccepts hlower).1
      refine ⟨hs.once, pairwise_singleton _ _, fun entry hentry entry' hentry' hc => ?_⟩
      obtain rfl := mem_singleton.1 hentry'
      exact hs.not_sameSubmission hconn haccepts hmade hentry hc

end Ledger

/-- Within one connection no submission is accepted twice, however it is spelled. -/
def NoRepeatedSubmission (s : Server D) : Prop :=
  s.shares.Pairwise fun entry entry' => entry.1 = entry'.1 → ¬ entry.2.SameSubmission entry'.2

def NoRepeatedHeader (s : Server D) : Prop :=
  s.shares.Pairwise fun entry entry' => entry.2.header ≠ entry'.2.header

/-- No two of the strings that were hashed for the accepted shares collide. -/
def NoCollision (env : StratumEnv D) (s : Server D) : Prop :=
  ∀ x ∈ s.shares.flatMap fun entry => entry.2.hashInputs env,
    ∀ y ∈ s.shares.flatMap fun entry => entry.2.hashInputs env, env.hash x = env.hash y → x = y

theorem Ledger.noRepeatedHeader (hs : Ledger env s)
    (hpair : ∀ x y, env.hashPair x y = env.hash (pairBytes x y)) (hinj : NoCollision env s) :
    NoRepeatedHeader s := by
  refine hs.once.imp_of_mem fun {entry entry'} hentry hentry' hnot heq => ?_
  obtain ⟨hjob, conn, p, hconn, hmade, -⟩ := hs.credited entry hentry
  obtain ⟨hjob', conn', p', hconn', hmade', -⟩ := hs.credited entry' hentry'
  obtain ⟨hwork, hextra, hen2⟩ := hmade.sameWork hmade' hpair hinj
    (fun x hx => mem_flatMap.2 ⟨entry, hentry, hx⟩)
    (fun x hx => mem_flatMap.2 ⟨entry', hentry', hx⟩) heq
  have hc := hs.extranonces.distinct _ _ conn conn' hconn hconn' hextra
  have hsame : entry.2.job = entry'.2.job := hs.work _ hjob _ hjob' hwork
  exact hnot hc ⟨by rw [hsame], hen2, by rw [heq], by rw [heq]⟩

/-- In a run whose steps meet `CreditsOnce` no submission is accepted twice on a
connection. If moreover both hashes of the server are one function, without a
collision among what it hashed, then no two accepted shares of any clients have the
same header. -/
theorem work_credited_once (env : StratumEnv D) (tip : uint256) (events : List Event)
    (hmeet : AllMeet (step env) (CreditsOnce env) (Server.init tip) events) :
    NoRepeatedSubmission (run env tip events) ∧
      ((∀ x y, env.hashPair x y = env.hash (pairBytes x y)) →
        NoCollision env (run env tip events) → NoRepeatedHeader (run env tip events)) := by
  have hrun : Ledger env (run env tip events) :=
    runEvents_keeps (fun s e hok hs => hs.effect (step_effect e) hok) (Ledger.init tip) hmeet
  exact ⟨hrun.once, hrun.noRepeatedHeader⟩

def sampleTwoShares : List Event :=
  sampleCreateJob ++ [.connect 100, .line 0 [2] sampleClock, .line 0 [4] sampleClock]

theorem work_credited_once_sample :
    (run sampleEnv 7 sampleTwoShares).shares.length = 2 ∧
      NoRepeatedSubmission (run sampleEnv 7 sampleTwoShares) ∧
      NoRepeatedHeader (run sampleEnv 7 sampleTwoShares) := by
  obtain ⟨hsubmission, hheader⟩ :=
    work_credited_once sampleEnv 7 sampleTwoShares (by decide +kernel)
  refine ⟨by decide +kernel, hsubmission, hheader (fun _ _ => rfl) ?_⟩
  unfold NoCollision
  decide +kernel

-- a refresh registers the same work under another id, and it is credited under both
example : ¬ NoRepeatedHeader (run sampleEnv 7 (sampleCreateJob ++ [.startBroadcast false,
    .buildNotify] ++ sampleCreateJob ++
      [.connect 100, .line 0 [2] sampleClock, .line 0 [5] sampleClock])) := by
  unfold NoRepeatedHeader
  decide +kernel

/-- The same extranonce in capitals is another string, so the share is credited
again. -/
theorem respelled_share_credited_twice :
    ¬ NoRepeatedSubmission (run sampleEnv 7
        (sampleCreateJob ++ [.connect 100, .line 0 [2] sampleClock, .line 0 [3] sampleClock])) ∧
      ¬ NoRepeatedHeader (run sampleEnv 7
        (sampleCreateJob ++ [.connect 100, .line 0 [2] sampleClock, .line 0 [3] sampleClock])) := by
  unfold NoRepeatedSubmission NoRepeatedHeader Share.SameSubmission
  decide +kernel

/-- In every run, whatever the interleaving, until a counter is about to wrap: jobs with one id are
equal, no two clients share a first extranonce, and a job that a thread holds is registered. -/
theorem ids_given_once (env : StratumEnv D) (tip : uint256) (events : List Event)
    (hmeet : AllMeet (step env)
      (fun s _ => s.nJobCounter ≠ 0xffffffff ∧ s.nClientCounter ≠ 0xffffffff)
      (Server.init tip) events) :
    Registry (run env tip events) ∧ Extranonces (run env tip events) := by
  refine runEvents_keeps (P := fun s => Registry s ∧ Extranonces s) (fun s e hok hs => ?_)
    ⟨Registry.init tip, Extranonces.init tip⟩ hmeet
  have heffect : Effect env s e (step env s e) := step_effect e
  exact ⟨hs.1.effect heffect fun _ => hok.1, hs.2.effect heffect fun _ _ => hok.2⟩

theorem ids_given_once_sample : (run sampleEnv 7 sampleTwoShares).created ≠ [] ∧
    Registry (run sampleEnv 7 sampleTwoShares) ∧ Extranonces (run sampleEnv 7 sampleTwoShares) :=
  ⟨by decide +kernel, ids_given_once sampleEnv 7 sampleTwoShares (by decide +kernel)⟩

end Stratum

end Coinyecoin
