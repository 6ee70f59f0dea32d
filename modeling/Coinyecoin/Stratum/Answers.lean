import Coinyecoin.Stratum.Candidate

/-!
# Answers to requests

Which requests are answered. The handlers read their parameters with accessors
that throw on a value of another type; the reading loop of the client catches the
exception and goes on, so that such a request is never answered.
-/

namespace Coinyecoin

namespace Stratum

open Foundation

variable {D : Type}

def Message.id : Message D → UniValue
  | .reply id _ _ => id
  | .setDifficulty _ | .notify _ => .null

section

variable (env : StratumEnv D)

/-- `HandleLine` as the reading loop calls it; `current` is the job that a
subscription finds. -/
def serveLine (clock : Clock) (mapJobs : List StratumJob) (current : Option StratumJob)
    (client : StratumClient D) (strLine : StdString) : StratumClient D :=
  match handleLine env clock mapJobs client strLine with
  | .error _ => client
  | .ok handled =>
    match handled.fLookup, current with
    | true, some job => handled.client.sendNotify job true
    | _, _ => handled.client

/-- The parameters that the handler of a request reads have the types it reads them
as. -/
def ParamsReadable (r : Request) : Prop :=
  match r.method with
  | .submit => 5 ≤ r.params.length →
      ∀ i ∈ [1, 2, 3, 4], ∃ s, UniValue.index r.params i = .str s
  | .suggestDifficulty => ∀ text, UniValue.index r.params 0 = .num text →
      ∃ dSuggested, env.getReal text = .ok dSuggested
  | _ => True

/-- Of the messages sent from `client` to `client'`, exactly one has the given
id. -/
def AnsweredOnce (id : UniValue) (client client' : StratumClient D) : Prop :=
  ∃ before msg after, client'.sent = client.sent ++ (before ++ msg :: after) ∧ msg.id = id ∧
    ∀ other ∈ before ++ after, other.id ≠ id

def Replied (id : UniValue) (client client' : StratumClient D) : Prop :=
  ∃ before result error after,
    client'.sent = client.sent ++ (before ++ .reply id result error :: after) ∧
      ∀ other ∈ before ++ after, other.id = .null

variable {id : UniValue} {client client' : StratumClient D}

theorem Replied.answeredOnce (h : Replied id client client') (hid : id ≠ .null) :
    AnsweredOnce id client client' := by
  obtain ⟨before, result, error, after, hsent, hother⟩ := h
  refine ⟨before, .reply id result error, after, hsent, rfl, fun other hmem heq => hid ?_⟩
  rw [← heq, hother other hmem]

theorem replied_send {client : StratumClient D} {id result error : UniValue} :
    Replied id client (client.send (.reply id result error)) :=
  ⟨[], result, error, [], rfl, fun _ h => nomatch h⟩

theorem Replied.send (h : Replied id client client') {msg : Message D} (hmsg : msg.id = .null) :
    Replied id client (client'.send msg) := by
  obtain ⟨before, result, error, after, hsent, hother⟩ := h
  refine ⟨before, result, error, after ++ [msg], ?_, ?_⟩
  · rw [StratumClient.send, hsent]
    simp
  · intro other hmem
    rw [← List.append_assoc, List.mem_append, List.mem_singleton] at hmem
    rcases hmem with hmem | rfl
    · exact hother other hmem
    · exact hmsg

theorem Replied.of_sent {client₀ : StratumClient D} (hsent : client₀.sent = client.sent)
    (h : Replied id client₀ client') : Replied id client client' := by
  unfold Replied at h ⊢
  rw [← hsent]
  exact h

theorem not_answeredOnce_self {id : UniValue} {client : StratumClient D} :
    ¬ AnsweredOnce id client client := by
  rintro ⟨before, msg, after, hsent, -, -⟩
  have hnil := List.self_eq_append_right.1 hsent
  simp at hnil

end

section

variable {env : StratumEnv D} {clock : Clock} {mapJobs : List StratumJob}
  {client : StratumClient D}

theorem Replied.sendNotify {id : UniValue} {client' : StratumClient D}
    (h : Replied id client client') (job : StratumJob) (fClean : Bool) :
    Replied id client (client'.sendNotify job fClean) := by
  unfold StratumClient.sendNotify
  split
  · exact h.send rfl
  · exact h

theorem replied_submit (id : UniValue) (p : SubmitParams) :
    Replied id client (submit env clock mapJobs client id p).1 := by
  unfold submit
  split
  · exact (replied_send).of_sent rfl
  · split_ifs
    · exact (replied_send).of_sent rfl
    · exact (replied_send).of_sent rfl
    · dsimp only
      split <;> exact (replied_send).of_sent rfl

theorem replied_suggestDifficulty (id : UniValue) {dSuggested : D} :
    Replied id client
      ((suggestDifficulty env clock client dSuggested).sendResult id (.bool true)) := by
  unfold suggestDifficulty
  split_ifs
  · refine ⟨[.setDifficulty dSuggested], .bool true, .null, [], ?_, ?_⟩
    · simp [StratumClient.sendResult, StratumClient.send]
    · simp [Message.id]
  · exact replied_send

theorem getStr_eq_ok {v : UniValue} {s : StdString} : v.getStr = .ok s ↔ v = .str s := by
  cases v <;> simp [UniValue.getStr]

theorem exists_getSubmitParams {params : List UniValue} :
    (∃ p, getSubmitParams params = .ok p) ↔
      ∀ i ∈ [1, 2, 3, 4], ∃ s, UniValue.index params i = .str s := by
  simp only [getSubmitParams, bind_eq_ok, getStr_eq_ok, List.forall_mem_cons,
    List.not_mem_nil, false_imp_iff, implies_true, and_true]
  constructor
  · rintro ⟨p, strJob, hjob, strEn2, hen2, strTime, htime, strNonce, hnonce, -⟩
    exact ⟨⟨_, hjob⟩, ⟨_, hen2⟩, ⟨_, htime⟩, ⟨_, hnonce⟩⟩
  · rintro ⟨⟨strJob, hjob⟩, ⟨strEn2, hen2⟩, ⟨strTime, htime⟩, ⟨strNonce, hnonce⟩⟩
    exact ⟨_, strJob, hjob, strEn2, hen2, strTime, htime, strNonce, hnonce, rfl⟩

variable (env clock mapJobs client)

theorem handleRequest_replied {r : Request} (hid : r.id ≠ .null) (h : ParamsReadable env r) :
    ∃ handled, handleRequest env clock mapJobs client r = .ok handled ∧
      Replied r.id client handled.client := by
  obtain ⟨id, method, params⟩ := r
  cases method with
  | subscribe => exact ⟨_, rfl, (((replied_send).send rfl).of_sent rfl)⟩
  | authorize =>
    refine ⟨_, rfl, ?_⟩
    change Replied id client (handleAuthorize env client id params)
    unfold handleAuthorize
    dsimp only
    cases authorizedScript env params with
    | some script => exact (replied_send).of_sent rfl
    | none => exact (replied_send).of_sent rfl
  | submit =>
    simp only [handleRequest, handleSubmit]
    split_ifs with hlen
    · exact ⟨_, rfl, (replied_send).of_sent rfl⟩
    · obtain ⟨p, hp⟩ := (exists_getSubmitParams).2 (h (Nat.le_of_not_lt hlen))
      rw [hp]
      exact ⟨_, rfl, replied_submit id p⟩
  | suggestDifficulty =>
    simp only [handleRequest, handleSuggestDifficulty]
    split
    · rename_i text htext
      obtain ⟨dSuggested, hreal⟩ := h text htext
      rw [hreal]
      exact ⟨_, rfl, replied_suggestDifficulty id⟩
    · exact ⟨_, rfl, replied_send⟩
  | other =>
    refine ⟨_, rfl, ?_⟩
    change Replied id client (handleOther client id)
    unfold handleOther
    split
    · exact absurd rfl hid
    · exact replied_send
  | _ => exact ⟨_, rfl, replied_send⟩

theorem handleRequest_throws {r : Request} (h : ¬ ParamsReadable env r) :
    ∃ fault, handleRequest env clock mapJobs client r = .error fault := by
  obtain ⟨id, method, params⟩ := r
  cases method with
  | submit =>
    simp only [ParamsReadable, not_forall] at h
    obtain ⟨hlen, i, hi, hno⟩ := h
    have hparams : ∀ p, getSubmitParams params ≠ .ok p := fun p hp =>
      hno ((exists_getSubmitParams).1 ⟨p, hp⟩ i hi)
    simp only [handleRequest, handleSubmit, if_neg (Nat.not_lt.2 hlen)]
    cases hp : getSubmitParams params with
    | ok p => exact absurd hp (hparams p)
    | error fault => exact ⟨fault, rfl⟩
  | suggestDifficulty =>
    simp only [ParamsReadable, not_forall] at h
    obtain ⟨text, htext, hno⟩ := h
    simp only [handleRequest, handleSuggestDifficulty]
    have htext' : UniValue.index params 0 = .num text := htext
    rw [htext']
    cases hreal : env.getReal text with
    | ok dSuggested => exact absurd ⟨dSuggested, hreal⟩ hno
    | error fault =>
      refine ⟨fault, ?_⟩
      simp only [hreal, error_bind]
  | _ => exact absurd trivial h

end

/-- A request with an id gets exactly one answer if and only if its parameters have
the types that its handler reads them as. -/
theorem request_answered_once_iff (env : StratumEnv D) (clock : Clock)
    (mapJobs : List StratumJob) (current : Option StratumJob) (client : StratumClient D)
    (strLine : StdString) (r : Request) (hr : parseRequest env strLine = some r)
    (hid : r.id ≠ .null) :
    AnsweredOnce r.id client (serveLine env clock mapJobs current client strLine) ↔
      ParamsReadable env r := by
  have hline : handleLine env clock mapJobs client strLine =
      handleRequest env clock mapJobs client r := by
    rw [handleLine, hr]
  constructor
  · intro hanswered
    by_contra hunreadable
    obtain ⟨fault, hfault⟩ := handleRequest_throws env clock mapJobs client hunreadable
    have hself : serveLine env clock mapJobs current client strLine = client := by
      rw [serveLine, hline, hfault]
    rw [hself] at hanswered
    exact not_answeredOnce_self hanswered
  · intro hreadable
    obtain ⟨handled, hhandled, hreplied⟩ :=
      handleRequest_replied env clock mapJobs client hid hreadable
    rw [serveLine, hline, hhandled]
    dsimp only
    split
    · exact (hreplied.sendNotify _ true).answeredOnce hid
    · exact hreplied.answeredOnce hid

/-- A subscription is answered. -/
theorem request_answered_once_iff_subscribe :
    AnsweredOnce (.num (str "1")) (StratumClient.new sampleEnv 1 0)
      (serveLine sampleEnv sampleClock [] none (StratumClient.new sampleEnv 1 0) [0]) :=
  (request_answered_once_iff sampleEnv sampleClock [] none (StratumClient.new sampleEnv 1 0) [0]
    ⟨.num (str "1"), .subscribe, []⟩ rfl (fun h => nomatch h)).2 trivial

/-- A node that is sent a share whose job id is the number 1. -/
def numericJobEnv : StratumEnv Unit :=
  { sampleEnv with
    readJson := fun _ => some (sampleRequest "mining.submit" [.str (str "w"), .num (str "1"),
      .str (str "0000000a"), .str (str "00000001"), .str (str "00000002")]) }

/-- It throws, and nothing is sent. -/
theorem numeric_job_unanswered :
    (parseRequest numericJobEnv []).map Request.id = some (.num (str "1")) ∧
      ¬ AnsweredOnce (.num (str "1")) (StratumClient.new numericJobEnv 1 0)
        (serveLine numericJobEnv sampleClock [] none (StratumClient.new numericJobEnv 1 0) []) :=
  ⟨rfl, not_answeredOnce_self⟩

end Stratum

end Coinyecoin
