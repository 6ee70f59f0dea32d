import Coinyecoin.Stratum.Announced
import Coinyecoin.Stratum.Retention

/-!
# The order of announcements

A `mining.subscribe` looks up the current job under the lock and sends it after the
lock was released. Meanwhile the job thread may create and announce a newer job, and
then the older one arrives last.

The messages carry job ids only, and those repeat when the counter wraps. So a
history goes with the run: the number of the job that each client thread has
looked up, and the numbers of the jobs that each client was told, in order.
-/

namespace Coinyecoin

namespace Stratum

open Foundation List Option

variable {D : Type}

theorem findJob_insertJob (job : StratumJob) (mapJobs : List StratumJob) :
    findJob (insertJob job mapJobs) job.id = some job := by
  induction mapJobs with
  | nil => simp [insertJob, findJob]
  | cons first mapJobs ih =>
    rw [insertJob]
    split_ifs with hlt heq
    · simp [findJob]
    · simp [findJob]
    · have hne : (first.id == job.id) = false := beq_eq_false_iff_ne.2 (Ne.symm heq)
      simp only [findJob, find?_cons, hne]
      exact ih

theorem findJob_eraseP {id id' : StdString} (hne : id' ≠ id) (mapJobs : List StratumJob) :
    findJob (mapJobs.eraseP fun job => job.id == id') id = findJob mapJobs id := by
  induction mapJobs with
  | nil => rfl
  | cons first mapJobs ih =>
    unfold findJob at ih ⊢
    by_cases hfirst : first.id = id'
    · have hmiss : (first.id == id) = false := beq_eq_false_iff_ne.2 (hfirst ▸ hne)
      simp only [eraseP_cons, hfirst, beq_self_eq_true, cond_true]
      rw [find?_cons, hmiss]
    · have hkept : (first.id == id') = false := beq_eq_false_iff_ne.2 hfirst
      simp only [eraseP_cons, hkept, cond_false]
      rw [find?_cons, find?_cons, ih]

theorem findJob_pruneJobs (id : StdString) (fuel : ℕ) (mapJobs : List StratumJob) :
    findJob (pruneJobs id fuel mapJobs) id = findJob mapJobs id := by
  induction fuel generalizing mapJobs with
  | zero => rfl
  | succ fuel ih =>
    cases mapJobs with
    | nil => rfl
    | cons first mapJobs =>
      simp only [pruneJobs]
      split_ifs with hlen hid
      · rfl
      · rw [ih, findJob_eraseP hid]
      · rfl

theorem formatX_ne_nil (n : UInt32) : formatX n ≠ [] := by
  unfold formatX
  split
  · exact cons_ne_nil _ _
  · assumption

theorem currentJob_register (s : Server D) (job : StratumJob) :
    currentJob (s.register job) = (s.register job).created.getLast? := by
  have hne : (s.register job).strCurrentJob.isEmpty = false := by
    rw [isEmpty_eq_false_iff]
    exact formatX_ne_nil _
  rw [currentJob, hne]
  change findJob (registerJob (s.named job) s.mapJobs) (s.named job).id =
    (s.created ++ [s.named job]).getLast?
  rw [getLast?_concat, registerJob, findJob_pruneJobs, findJob_insertJob]

section

/-- The number of the job that the thread of each client looked up last, and of those
that each client was told. -/
structure History where
  held : ℕ → ℕ
  told : ℕ → List ℕ

variable (s : Server D) (h : History)

def Server.lastNumber : ℕ := s.created.length - 1

def looksUp (e : Event) (c : ℕ) : Bool :=
  match e with
  | .subscription c' =>
    match s.clients[c]? with
    | some ⟨_, _, .lookup⟩ => c' == c
    | _ => false
  | _ => false

def tells (e : Event) (c : ℕ) : Option ℕ :=
  match e with
  | .subscription c' =>
    match s.clients[c]? with
    | some ⟨client, _, .announce job⟩ =>
      if c' = c ∧ (notifyParams job client.payoutScript true).isSome then some (h.held c)
      else none
    | _ => none
  | .sendNotify =>
    match s.jobThread with
    | .sending _ _ _ c' _ =>
      if c' = c ∧ c < s.clients.length then some s.lastNumber else none
    | _ => none
  | _ => none

def History.record (e : Event) : History where
  held := fun c => if looksUp s e c then s.lastNumber else h.held c
  told := fun c => h.told c ++ (tells s h e c).toList

def History.init : History := ⟨fun _ => 0, fun _ => []⟩

def recordStep (env : StratumEnv D) (sh : Server D × History) (e : Event) :
    Server D × History :=
  (step env sh.1 e, sh.2.record sh.1 e)

def recordedRun (env : StratumEnv D) (tip : uint256) (events : List Event) :
    Server D × History :=
  runEvents (recordStep env) (Server.init tip, .init) events

end

def About (s : Server D) (i : ℕ) (params : Notify) : Prop :=
  s.created[i]?.map StratumJob.id = some params.jobId

/-- Each client was told of jobs in the order of their creation. -/
def InCreationOrder (sh : Server D × History) : Prop :=
  ∀ (c : ℕ) (conn : Connection D), sh.1.clients[c]? = some conn →
    List.Forall₂ (About sh.1) (sh.2.told c) conn.client.announced ∧
      (sh.2.told c).Pairwise (· ≤ ·)

/-- A client thread sends the job it has looked up only as long as its client was
told of no newer one. -/
def NotOvertaken (sh : Server D × History) : Event → Prop
  | .subscription c => tells sh.1 sh.2 (.subscription c) c ≠ none →
      ∀ i ∈ sh.2.told c, i ≤ sh.2.held c
  | _ => True

structure Recorded (s : Server D) (h : History) : Prop where
  current : currentJob s = s.created.getLast?
  jobThread : ∀ job, s.jobThread.job? = some job → s.created.getLast? = some job
  sending : ∀ job fClean vClients c params, s.jobThread = .sending job fClean vClients c params →
    params.jobId = job.id
  held : ∀ (c : ℕ) (conn : Connection D) (job : StratumJob), s.clients[c]? = some conn →
    conn.thread = .announce job → s.created[h.held c]? = some job
  told : ∀ (c : ℕ) (conn : Connection D), s.clients[c]? = some conn →
    List.Forall₂ (About s) (h.told c) conn.client.announced
  fresh : ∀ c, s.clients.length ≤ c → h.told c = []

section

variable {env : StratumEnv D} {s s' : Server D} {h : History} {e : Event} {c : ℕ}
  {conn conn' : Connection D}

theorem ClientMove.quiet (hmove : ClientMove env s c conn e conn')
    (hsub : ∀ c, e ≠ .subscription c) (hsend : e ≠ .sendNotify) :
    conn'.client.announced = conn.client.announced ∧
      ∀ job, conn'.thread = .announce job → conn.thread = .announce job := by
  cases hmove with
  | stay => exact ⟨rfl, fun _ hthread => hthread⟩
  | close =>
    refine ⟨by rw [closeConnection_client], fun job hthread => ?_⟩
    unfold closeConnection at hthread
    split at hthread <;> exact hthread
  | line strLine clock handled hidle hhandled =>
    refine ⟨(handleLine_keeps hhandled).1.announced, fun job hthread => ?_⟩
    unfold Connection.handled at hthread
    dsimp only at hthread
    split_ifs at hthread
  | subscription => exact absurd rfl (hsub c)
  | vardiff nNow => exact ⟨announced_adjustDifficulty nNow conn.client, fun _ hthread => hthread⟩
  | notify => exact absurd rfl hsend

structure ClientStep (s : Server D) (h : History) (e : Event) (c : ℕ)
    (conn conn' : Connection D) : Prop where
  announced : tells s h e c = none ∧ conn'.client.announced = conn.client.announced ∨
    ∃ params, conn'.client.announced = conn.client.announced ++ [params] ∧
      ((∃ job, e = .subscription c ∧ conn.thread = .announce job ∧
          tells s h e c = some (h.held c) ∧ params.jobId = job.id) ∨
        ∃ job fClean vClients, s.jobThread = .sending job fClean vClients c params ∧
          tells s h e c = some s.lastNumber)
  thread : ∀ job, conn'.thread = .announce job →
    looksUp s e c = false ∧ conn.thread = .announce job ∨
      looksUp s e c = true ∧ currentJob s = some job

theorem clientStep_subscription (hconn : s.clients[c]? = some conn) :
    ClientStep s h (.subscription c) c conn (stepSubscription s conn) := by
  obtain ⟨client, fOpen, thread⟩ := conn
  cases thread with
  | idle =>
    refine ⟨.inl ⟨?_, rfl⟩, fun job hthread => nomatch hthread⟩
    simp only [tells, hconn]
  | lookup =>
    have hlooks : looksUp s (.subscription c) c = true := by
      simp only [looksUp, hconn, beq_self_eq_true]
    refine ⟨.inl ⟨by simp only [tells, hconn], ?_⟩, fun job hthread => .inr ⟨hlooks, ?_⟩⟩
    · simp only [stepSubscription]
      split <;> rfl
    · simp only [stepSubscription] at hthread
      split at hthread
      · rename_i job' hcurrent
        cases hthread
        exact hcurrent
      · exact nomatch hthread
  | announce job =>
    refine ⟨?_, fun job hthread => nomatch hthread⟩
    simp only [stepSubscription, StratumClient.sendNotify]
    cases hparams : notifyParams job client.payoutScript true with
    | none => exact .inl ⟨by simp [tells, hconn, hparams], rfl⟩
    | some params =>
      refine .inr ⟨params, client.announced_send_notify params, .inl ⟨job, trivial, rfl, ?_, ?_⟩⟩
      · simp [tells, hconn, hparams]
      · exact notifyParams_jobId hparams

theorem clientStep_self (htells : tells s h e c = none) (hlooks : looksUp s e c = false) :
    ClientStep s h e c conn conn :=
  ⟨.inl ⟨htells, rfl⟩, fun _ hthread => .inl ⟨hlooks, hthread⟩⟩

theorem getElem?_modify_of_some {α : Type} {l : List α} {i j : ℕ} {f : α → α} {a : α}
    (ha : l[j]? = some a) : (l.modify i f)[j]? = some (if i = j then f a else a) := by
  rw [getElem?_modify, ha]
  rfl

section

variable (hconn : s.clients[c]? = some conn)
include hconn

theorem step_subscription_clientStep {c' : ℕ}
    (hconn' : (step env s (.subscription c')).clients[c]? = some conn') :
    ClientStep s h (.subscription c') c conn conn' := by
  have hmodify : some conn' = some (if c' = c then stepSubscription s conn else conn) :=
    hconn'.symm.trans (getElem?_modify_of_some hconn)
  rw [some_inj] at hmodify
  by_cases hc : c' = c
  · subst hc
    rw [if_pos rfl] at hmodify
    subst hmodify
    exact clientStep_subscription hconn
  · rw [if_neg hc] at hmodify
    subst hmodify
    obtain ⟨client, fOpen, thread⟩ := conn'
    apply clientStep_self
    · cases thread <;> simp [tells, hconn, hc]
    · cases thread <;> simp [looksUp, hconn, hc]

theorem step_sendNotify_clientStep (hconn' : (step env s .sendNotify).clients[c]? = some conn') :
    ClientStep s h .sendNotify c conn conn' := by
  have hlt := (List.getElem?_eq_some_iff.1 hconn).1
  simp only [step] at hconn'
  split at hconn'
  · rename_i job fClean vClients c' params hthread
    have hmodify := hconn'.symm.trans (getElem?_modify_of_some hconn)
    rw [some_inj] at hmodify
    by_cases hc : c' = c
    · subst hc
      rw [if_pos rfl] at hmodify
      subst hmodify
      refine ⟨.inr ⟨params, conn.client.announced_send_notify params,
        .inr ⟨job, fClean, vClients, hthread, ?_⟩⟩, fun job hthread => .inl ⟨rfl, hthread⟩⟩
      simp only [tells, hthread, hlt, and_self, if_true]
    · rw [if_neg hc] at hmodify
      subst hmodify
      exact clientStep_self (by simp [tells, hthread, hc]) rfl
  · rename_i hother
    cases hconn.symm.trans hconn'
    refine clientStep_self ?_ rfl
    simp only [tells]

theorem step_clientStep
    (hconn' : (step env s e).clients[c]? = some conn') : ClientStep s h e c conn conn' := by
  have hquiet (hsub : ∀ c, e ≠ .subscription c) (hsend : e ≠ .sendNotify)
      (htells : tells s h e c = none) (hlooks : looksUp s e c = false) :
      ClientStep s h e c conn conn' := by
    have heffect : Effect env s e (step env s e) := step_effect e
    obtain ⟨conn₁, hconn₁, hmove⟩ := heffect.client_move hconn
    cases hconn₁.symm.trans hconn'
    obtain ⟨hann, hthread⟩ := hmove.quiet hsub hsend
    exact ⟨.inl ⟨htells, hann⟩, fun job hjob => .inl ⟨hlooks, hthread job hjob⟩⟩
  cases e with
  | subscription c' => exact step_subscription_clientStep hconn hconn'
  | sendNotify => exact step_sendNotify_clientStep hconn hconn'
  | _ => exact hquiet (fun _ => nofun) nofun rfl rfl

end

section

variable (heffect : Effect env s e s')
include heffect

theorem Effect.created_append : ∃ more, s'.created = s.created ++ more := by
  cases heffect with
  | registerJob job => exact ⟨[_], rfl⟩
  | _ => exact ⟨[], (append_nil _).symm⟩

theorem Effect.currentJob
    (hcurrent : currentJob s = s.created.getLast?) : currentJob s' = s'.created.getLast? := by
  cases heffect with
  | registerJob job => exact currentJob_register s job
  | _ => exact hcurrent

theorem Effect.lastJob
    (hlast : ∀ job, s.jobThread.job? = some job → s.created.getLast? = some job) :
    ∀ job, s'.jobThread.job? = some job → s'.created.getLast? = some job := by
  intro job hjob
  cases heffect with
  | registerJob job' hthread =>
    cases hjob
    exact getLast?_concat
  | buildTemplate | readHeight | finish => exact nomatch hjob
  | startBroadcast job' fClean hthread | passOver job' fClean c' vClients hthread
  | buildNotify job' fClean c' vClients conn params hthread hconn hparams
  | sendNotify job' fClean vClients c' params hthread =>
    exact hlast job (by rw [hthread]; exact hjob)
  | _ => exact hlast job hjob

end

namespace Recorded

theorem init (tip : uint256) : Recorded (Server.init tip : Server D) .init where
  current := rfl
  jobThread := fun _ hjob => nomatch hjob
  sending := fun _ _ _ _ _ hthread => nomatch hthread
  held := fun _ _ _ hconn => nomatch hconn
  told := fun _ _ hconn => nomatch hconn
  fresh := fun _ _ => rfl

variable {job : StratumJob} {i : ℕ}

theorem getElem?_lastNumber (hjob : s.created.getLast? = some job) :
    s.created[s.lastNumber]? = some job := by
  rw [Server.lastNumber, ← getLast?_eq_getElem?, hjob]

theorem getElem?_mono (heffect : Effect env s e s')
    (hjob : s.created[i]? = some job) : s'.created[i]? = some job := by
  obtain ⟨more, hmore⟩ := heffect.created_append
  rw [hmore, List.getElem?_append_left (List.getElem?_eq_some_iff.1 hjob).1, hjob]

theorem about_mono (heffect : Effect env s e s') {params : Notify}
    (habout : About s i params) : About s' i params := by
  obtain ⟨job, hjob, hid⟩ := map_eq_some_iff.1 habout
  exact map_eq_some_iff.2 ⟨job, getElem?_mono heffect hjob, hid⟩

theorem tells_of_length_le (hc : s.clients.length ≤ c) : tells s h e c = none := by
  have hnone : s.clients[c]? = none := getElem?_eq_none hc
  cases e with
  | subscription c' => simp only [tells, hnone]
  | sendNotify =>
    simp only [tells]
    split
    · exact if_neg fun hlt => absurd hlt.2 (Nat.not_lt.2 hc)
    · rfl
  | _ => rfl

section

variable (hs : Recorded s h) (hconn : s.clients[c]? = some conn)
  (hstep : ClientStep s h e c conn conn')
include hs hconn hstep

theorem told_step : List.Forall₂ (About s) ((h.record s e).told c) conn'.client.announced := by
  have htold := hs.told c conn hconn
  change List.Forall₂ (About s) (h.told c ++ (tells s h e c).toList) _
  rcases hstep.announced with ⟨htells, hann⟩ | ⟨params, hann, hnew⟩
  · rw [htells, hann, toList_none, append_nil]
    exact htold
  · rcases hnew with ⟨job, -, hthread, htells, hid⟩ | ⟨job, fClean, vClients, hthread, htells⟩
    · rw [htells, hann]
      refine rel_append htold (.cons ?_ .nil)
      rw [About, hs.held c conn job hconn hthread, hid]
      rfl
    · rw [htells, hann]
      have hlast := hs.jobThread job (by rw [hthread]; rfl)
      refine rel_append htold (.cons ?_ .nil)
      rw [About, getElem?_lastNumber hlast, hs.sending _ _ _ _ _ hthread]
      rfl

theorem held_step (hthread : conn'.thread = .announce job) :
    s.created[(h.record s e).held c]? = some job := by
  change s.created[if looksUp s e c then s.lastNumber else h.held c]? = some job
  rcases hstep.thread job hthread with ⟨hlooks, hheld⟩ | ⟨hlooks, hcurrent⟩
  · rw [hlooks, if_neg Bool.false_ne_true]
    exact hs.held c conn job hconn hheld
  · rw [hlooks, if_pos rfl]
    exact getElem?_lastNumber (hs.current ▸ hcurrent)

end

theorem step (hs : Recorded s h) (e : Event) : Recorded (step env s e) (h.record s e) := by
  have heffect : Effect env s e (Stratum.step env s e) := step_effect e
  refine ⟨heffect.currentJob hs.current, heffect.lastJob hs.jobThread, ?_, ?_, ?_, ?_⟩
  · intro job fClean vClients c params hthread
    rcases heffect.sending hthread with hthread | ⟨-, -, conn, -, hparams⟩
    · exact hs.sending job fClean vClients c params hthread
    · exact notifyParams_jobId hparams
  · intro c conn' job hconn' hthread
    rcases heffect.client hconn' with ⟨nNow, -, -, -, rfl⟩ | ⟨conn, hconn, -⟩
    · exact nomatch hthread
    · exact getElem?_mono heffect (hs.held_step hconn (step_clientStep hconn hconn') hthread)
  · intro c conn' hconn'
    rcases heffect.client hconn' with ⟨nNow, -, rfl, -, rfl⟩ | ⟨conn, hconn, -⟩
    · change List.Forall₂ _ (h.told s.clients.length ++ _) _
      rw [tells_of_length_le le_rfl, hs.fresh _ le_rfl]
      exact .nil
    · exact (hs.told_step hconn (step_clientStep hconn hconn')).imp
        fun _ _ habout => about_mono heffect habout
  · intro c hc
    have hc₀ := heffect.length_clients.trans hc
    change h.told c ++ _ = []
    rw [tells_of_length_le hc₀, hs.fresh c hc₀]
    rfl

end Recorded

end

section

variable {env : StratumEnv D} {s : Server D} {h : History} {e : Event} {c : ℕ}

theorem Recorded.le_lastNumber (hs : Recorded s h) {conn : Connection D}
    (hconn : s.clients[c]? = some conn) : ∀ i ∈ h.told c, i ≤ s.lastNumber := by
  have htold := hs.told c conn hconn
  generalize h.told c = told, conn.client.announced = announced at htold
  induction htold with
  | nil => exact fun _ hi => nomatch hi
  | cons habout _ ih =>
    refine forall_mem_cons.2 ⟨?_, ih⟩
    obtain ⟨job, hjob, -⟩ := map_eq_some_iff.1 habout
    exact Nat.le_sub_one_of_lt (List.getElem?_eq_some_iff.1 hjob).1

theorem tells_subscription {i : ℕ} (htells : tells s h (.subscription c) c = some i) :
    i = h.held c ∧ ∃ conn, s.clients[c]? = some conn := by
  simp only [tells] at htells
  split at htells
  · rename_i hconn
    split_ifs at htells
    cases htells
    exact ⟨rfl, _, hconn⟩
  · exact nomatch htells

theorem Recorded.told_pairwise (hs : Recorded s h) (horder : InCreationOrder (s, h))
    (hok : NotOvertaken (s, h) e) {conn conn' : Connection D}
    (hconn : s.clients[c]? = some conn) (hstep : ClientStep s h e c conn conn') :
    ((h.record s e).told c).Pairwise (· ≤ ·) := by
  have hold := (horder c conn hconn).2
  change (h.told c ++ (tells s h e c).toList).Pairwise (· ≤ ·)
  rcases hstep.announced with ⟨htells, -⟩ | ⟨params, -, hnew⟩
  · rw [htells, toList_none, append_nil]
    exact hold
  · rcases hnew with ⟨job, rfl, -, htells, -⟩ | ⟨job, fClean, vClients, -, htells⟩
    · have hle := hok (by rw [htells]; exact some_ne_none _)
      rw [htells]
      exact pairwise_append.2 ⟨hold, pairwise_singleton _ _, fun i hi j hj =>
        mem_singleton.1 hj ▸ hle i hi⟩
    · rw [htells]
      exact pairwise_append.2 ⟨hold, pairwise_singleton _ _, fun i hi j hj =>
        mem_singleton.1 hj ▸ hs.le_lastNumber hconn i hi⟩

theorem inCreationOrder_step_iff (hs : Recorded s h) (horder : InCreationOrder (s, h))
    (e : Event) : InCreationOrder (recordStep env (s, h) e) ↔ NotOvertaken (s, h) e := by
  have heffect : Effect env s e (step env s e) := step_effect e
  constructor
  · intro hafter
    cases e with
    | subscription c =>
      intro hne i hi
      obtain ⟨j, hj⟩ := ne_none_iff_exists'.1 hne
      obtain ⟨rfl, conn, hconn⟩ := tells_subscription hj
      obtain ⟨conn', hconn', -⟩ := heffect.client_move hconn
      have hpairwise := (hafter c conn' hconn').2
      change (h.told c ++ (tells s h (.subscription c) c).toList).Pairwise (· ≤ ·) at hpairwise
      rw [hj] at hpairwise
      exact (pairwise_append.1 hpairwise).2.2 i hi _ (mem_singleton_self _)
    | _ => trivial
  · intro hok c conn' hconn'
    refine ⟨(hs.step e).told c conn' hconn', ?_⟩
    rcases heffect.client hconn' with ⟨nNow, -, rfl, -, -⟩ | ⟨conn, hconn, -⟩
    · change (h.told s.clients.length ++ _).Pairwise (· ≤ ·)
      rw [Recorded.tells_of_length_le le_rfl, hs.fresh _ le_rfl]
      exact List.Pairwise.nil
    · exact hs.told_pairwise horder hok hconn (step_clientStep hconn hconn')

/-- In every run the clients are told of jobs in the order of creation at all times,
if and only if no client thread sends the job it has looked up after its client was
told of a newer one. -/
theorem announcements_in_order_iff (env : StratumEnv D) (tip : uint256) (events : List Event) :
    (∀ done, done <+: events → InCreationOrder (recordedRun env tip done)) ↔
      AllMeet (recordStep env) NotOvertaken (Server.init tip, .init) events := by
  have hrecorded (done : List Event) :
      Recorded (recordedRun env tip done).1 (recordedRun env tip done).2 :=
    runEvents_invariant (P := fun sh : Server D × History => Recorded sh.1 sh.2)
      (fun sh e hs => hs.step e) done (Recorded.init tip)
  have hstep (sh : Server D × History) (e : Event)
      (hs : Recorded sh.1 sh.2 ∧ InCreationOrder sh) :
      Recorded (recordStep env sh e).1 (recordStep env sh e).2 ∧
        InCreationOrder (recordStep env sh e) ↔ NotOvertaken sh e := by
    refine (and_iff_right ?_).trans (inCreationOrder_step_iff hs.1 hs.2 e)
    exact hs.1.step e
  have hinit : InCreationOrder ((Server.init tip : Server D), History.init) :=
    fun _ _ hconn => nomatch hconn
  rw [← forall_prefix_iff_allMeet hstep ⟨Recorded.init tip, hinit⟩]
  exact forall_congr' fun done => forall_congr' fun _ =>
    (and_iff_right (hrecorded done)).symm

/-- A client subscribes and its thread looks up the first job. Before it sends it, the
job thread announces the first job and creates and announces the second. -/
def sampleOvertaken : List Event :=
  sampleCreateJob ++ [.connect 100, .line 0 [0] sampleClock, .subscription 0,
    .startBroadcast true, .buildNotify, .sendNotify, .buildNotify] ++ sampleCreateJob ++
    [.startBroadcast true, .buildNotify, .sendNotify, .subscription 0]

/-- The client is told of the first job last. -/
theorem older_job_announced_last :
    ((run sampleEnv 7 sampleOvertaken).clients.map fun conn =>
        conn.client.announced.map Notify.jobId) = [[str "1", str "2", str "1"]] ∧
      (run sampleEnv 7 sampleOvertaken).created.map StratumJob.id = [str "1", str "2"] ∧
      ¬ InCreationOrder (recordedRun sampleEnv 7 sampleOvertaken) := by
  refine ⟨by decide +kernel, by decide +kernel, fun h => ?_⟩
  have htold : (recordedRun sampleEnv 7 sampleOvertaken).2.told 0 = [0, 1, 0] := by
    decide +kernel
  have hsome : (recordedRun sampleEnv 7 sampleOvertaken).1.clients[0]?.isSome = true := by
    decide +kernel
  obtain ⟨conn, hconn⟩ := isSome_iff_exists.1 hsome
  have hpairwise := (h 0 conn hconn).2
  rw [htold] at hpairwise
  exact absurd hpairwise (by decide)

end

end Stratum

end Coinyecoin
