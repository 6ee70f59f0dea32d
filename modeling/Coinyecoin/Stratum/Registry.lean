import Coinyecoin.Stratum.Server

/-!
# Job ids

As long as the job counter does not wrap, no id is given twice, and every job
that some thread still holds is one of those registered. So an id names one job.
-/

namespace Coinyecoin

namespace Stratum

open Foundation List

variable {D : Type} {env : StratumEnv D}

/-- The registered job that the job thread is busy with. -/
def JobThread.job? : JobThread → Option StratumJob
  | .registered job | .broadcast job _ _ | .sending job _ _ _ _ => some job
  | _ => none

theorem toNat_succ {n : UInt32} (hn : n ≠ 0xffffffff) : (n + 1).toNat = n.toNat + 1 := by
  have hlt := n.toNat_lt
  have hne : n.toNat ≠ 0xffffffff := fun h => hn (UInt32.toNat_inj.1 h)
  have hone : (1 : UInt32).toNat = 1 := rfl
  rw [UInt32.toNat_add, hone]
  omega

theorem Effect.mem_created {s s' : Server D} {e : Event} (h : Effect env s e s')
    {job : StratumJob} (hjob : job ∈ s.created) : job ∈ s'.created := by
  cases h with
  | registerJob => exact mem_append_left _ hjob
  | _ => exact hjob

/-- The jobs of the server are registered, and their ids are those given out so
far. -/
structure Registry (s : Server D) : Prop where
  ids : ∀ job ∈ s.created, ∃ n : UInt32, n.toNat ≤ s.nJobCounter.toNat ∧ job.id = formatX n
  distinct : ∀ job ∈ s.created, ∀ job' ∈ s.created, job.id = job'.id → job = job'
  mapJobs : ∀ job ∈ s.mapJobs, job ∈ s.created
  jobThread : ∀ job, s.jobThread.job? = some job → job ∈ s.created
  announce : ∀ (c : ℕ) (conn : Connection D) (job : StratumJob), s.clients[c]? = some conn →
    conn.thread = .announce job → job ∈ s.created

namespace Registry

theorem init (tip : uint256) : Registry (Server.init tip : Server D) where
  ids := fun _ h => nomatch h
  distinct := fun _ h => nomatch h
  mapJobs := fun _ h => nomatch h
  jobThread := fun _ h => nomatch h
  announce := fun _ _ _ h => nomatch h

variable {s : Server D} {job : StratumJob} {e : Event}

theorem id_fresh (hs : Registry s) (hcounter : s.nJobCounter ≠ 0xffffffff) :
    ∀ job ∈ s.created, job.id ≠ formatX (s.nJobCounter + 1) := by
  intro job hjob hid
  obtain ⟨n, hn, hidn⟩ := hs.ids job hjob
  have heq : n = s.nJobCounter + 1 := formatX_injective (hidn.symm.trans hid)
  rw [heq, toNat_succ hcounter] at hn
  omega

theorem register (hs : Registry s) (job : StratumJob)
    (hcounter : s.nJobCounter ≠ 0xffffffff) : Registry (s.register job) := by
  have hfresh := hs.id_fresh hcounter
  refine ⟨?_, ?_, ?_, ?_, ?_⟩
  · intro job' hmem
    rcases mem_append.1 hmem with hmem | hmem
    · obtain ⟨n, hn, hid⟩ := hs.ids job' hmem
      exact ⟨n, hn.trans ((Nat.le_succ _).trans_eq (toNat_succ hcounter).symm), hid⟩
    · exact ⟨s.nJobCounter + 1, le_rfl, by rw [mem_singleton.1 hmem]⟩
  · intro job₁ hmem₁ job₂ hmem₂ hid
    rcases mem_append.1 hmem₁ with hmem₁ | hmem₁ <;>
      rcases mem_append.1 hmem₂ with hmem₂ | hmem₂
    · exact hs.distinct job₁ hmem₁ job₂ hmem₂ hid
    · rw [mem_singleton.1 hmem₂] at hid
      exact absurd hid (hfresh job₁ hmem₁)
    · rw [mem_singleton.1 hmem₁] at hid
      exact absurd hid.symm (hfresh job₂ hmem₂)
    · rw [mem_singleton.1 hmem₁, mem_singleton.1 hmem₂]
  · intro job' hmem
    rcases mem_registerJob hmem with rfl | hmem
    · exact mem_append_right _ (mem_singleton_self _)
    · exact mem_append_left _ (hs.mapJobs job' hmem)
  · intro job' hjob
    cases hjob
    exact mem_append_right _ (mem_singleton_self _)
  · intro c conn job' hconn hthread
    exact mem_append_left _ (hs.announce c conn job' hconn hthread)

theorem currentJob_mem (h : currentJob s = some job) : job ∈ s.mapJobs := by
  unfold currentJob at h
  split_ifs at h
  exact mem_of_find?_eq_some h

theorem announce_move (hs : Registry s) {c : ℕ} {conn conn' : Connection D}
    (hconn : s.clients[c]? = some conn) (hmove : ClientMove env s c conn e conn')
    (hthread : conn'.thread = .announce job) : job ∈ s.created := by
  cases hmove with
  | close =>
    refine hs.announce c conn job hconn ?_
    unfold closeConnection at hthread
    split at hthread <;> exact hthread
  | line strLine clock handled hidle hhandled =>
    unfold Connection.handled at hthread
    dsimp only at hthread
    split_ifs at hthread
  | subscription =>
    unfold stepSubscription at hthread
    split at hthread
    · split at hthread
      · rename_i job' hcurrent
        cases hthread
        exact hs.mapJobs job (currentJob_mem hcurrent)
      · exact nomatch hthread
    · exact nomatch hthread
    · exact hs.announce c conn job hconn hthread
  | _ => exact hs.announce c conn job hconn hthread

theorem effect {s s' : Server D} (hs : Registry s) (h : Effect env s e s')
    (hcounter : e = .registerJob → s.nJobCounter ≠ 0xffffffff) : Registry s' := by
  have hclients (hcreated : s'.created = s.created) : ∀ (c : ℕ) (conn : Connection D)
      (job : StratumJob), s'.clients[c]? = some conn → conn.thread = .announce job →
        job ∈ s'.created := by
    intro c conn job hconn hthread
    rw [hcreated]
    rcases h.client hconn with ⟨nNow, -, -, -, rfl⟩ | ⟨conn₀, hconn₀, hmove⟩
    · exact nomatch hthread
    · exact hs.announce_move hconn₀ hmove hthread
  cases h with
  | registerJob job hthread => exact hs.register job (hcounter rfl)
  | buildTemplate | readHeight | finish =>
    exact ⟨hs.ids, hs.distinct, hs.mapJobs, (fun _ hjob => nomatch hjob), hclients rfl⟩
  | startBroadcast job fClean hthread | passOver job fClean c vClients hthread
  | buildNotify job fClean c vClients conn params hthread hconn hparams
  | sendNotify job fClean vClients c params hthread =>
    refine ⟨hs.ids, hs.distinct, hs.mapJobs, fun job' hjob => ?_, hclients rfl⟩
    exact hs.jobThread job' (by rw [hthread]; exact hjob)
  | _ => exact ⟨hs.ids, hs.distinct, hs.mapJobs, hs.jobThread, hclients rfl⟩

end Registry

end Stratum

end Coinyecoin
