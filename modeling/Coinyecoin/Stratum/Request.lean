import Coinyecoin.Stratum.Submit

/-!
# Protocol dispatch

`HandleLine`: a line is read as a JSON object with a method, and each method
answers in its own way. A `mining.subscribe` is answered here up to the point
where the thread of the client goes on to look up the current job.

An exception leaves the client as it was, since every handler reads its
parameters before it changes anything.
-/

namespace Coinyecoin

namespace Stratum

open Foundation

variable {params : List UniValue}

variable {D : Type}

inductive Method where
  | subscribe
  | authorize
  | submit
  | extranonceSubscribe
  | suggestDifficulty
  | configure
  | getTransactions
  | other
deriving DecidableEq, Repr

def Method.ofString (strMethod : StdString) : Method :=
  if strMethod = str "mining.subscribe" then .subscribe
  else if strMethod = str "mining.authorize" then .authorize
  else if strMethod = str "mining.submit" then .submit
  else if strMethod = str "mining.extranonce.subscribe" then .extranonceSubscribe
  else if strMethod = str "mining.suggest_difficulty" then .suggestDifficulty
  else if strMethod = str "mining.configure" then .configure
  else if strMethod = str "mining.get_transactions" then .getTransactions
  else .other

structure Request where
  id : UniValue
  method : Method
  params : List UniValue

/-- The request on a line, if there is one. Parameters that are no array count as
none. -/
def parseRequest (env : StratumEnv D) (strLine : StdString) : Option Request :=
  match env.readJson strLine with
  | some (.obj fields) =>
    match UniValue.findValue fields (str "method") with
    | .str strMethod => some {
        id := UniValue.findValue fields (str "id")
        method := Method.ofString strMethod
        params :=
          match UniValue.findValue fields (str "params") with
          | .arr values => values
          | _ => [] }
    | _ => none
  | _ => none

/-- The client after a request, the share if one was accepted, and whether its
thread now looks up the current job. -/
structure Handled (D : Type) where
  client : StratumClient D
  share : Option Share
  fLookup : Bool

section

variable (env : StratumEnv D)

def workerName (params : List UniValue) : StdString :=
  match UniValue.index params 0 with
  | .str strUser => strUser
  | _ => []

def authorizedScript (params : List UniValue) : Option CScript :=
  env.scriptForAddress ((workerName params).takeWhile (· != 46))

def handleSubscribe (client : StratumClient D) (id : UniValue) : StratumClient D :=
  let en1 := UniValue.str (format08x client.nExtraNonce1)
  let subs := UniValue.arr [.arr [.str (str "mining.set_difficulty"), en1],
    .arr [.str (str "mining.notify"), en1]]
  ((StratumClient.sendResult { client with fSubscribed := true } id
    (.arr [subs, en1, .ofNat 4])).send (.setDifficulty client.dDiff))

def handleAuthorize (client : StratumClient D) (id : UniValue) (params : List UniValue) :
    StratumClient D :=
  let client := { client with strWorker := workerName params }
  let client :=
    match authorizedScript env params with
    | some script => { client with payoutScript := script, fPayoutFromUser := true }
    | none => client
  StratumClient.sendResult { client with fAuthorized := true } id (.bool true)

def suggestDifficulty (clock : Clock) (client : StratumClient D) (dSuggested : D) :
    StratumClient D :=
  if env.suggestible dSuggested then
    StratumClient.send
      { client with
        dPrevDiff := client.dDiff
        dDiff := dSuggested
        nDiffChangeTime := clock.getTime } (.setDifficulty dSuggested)
  else client

def handleSuggestDifficulty (clock : Clock) (client : StratumClient D) (id : UniValue)
    (params : List UniValue) : Except Fault (StratumClient D) :=
  match UniValue.index params 0 with
  | .num text => do
    let dSuggested ← env.getReal text
    return (suggestDifficulty env clock client dSuggested).sendResult id (.bool true)
  | _ => .ok (client.sendResult id (.bool true))

def handleOther (client : StratumClient D) (id : UniValue) : StratumClient D :=
  match id with
  | .null => client
  | id => client.sendResult id .null

def handleRequest (clock : Clock) (mapJobs : List StratumJob) (client : StratumClient D)
    (r : Request) : Except Fault (Handled D) :=
  match r.method with
  | .subscribe => .ok ⟨handleSubscribe client r.id, none, true⟩
  | .authorize => .ok ⟨handleAuthorize env client r.id r.params, none, false⟩
  | .submit => do
    let handled ← handleSubmit env clock mapJobs client r.id r.params
    return ⟨handled.1, handled.2, false⟩
  | .extranonceSubscribe => .ok ⟨client.sendResult r.id (.bool true), none, false⟩
  | .suggestDifficulty => do
    let client ← handleSuggestDifficulty env clock client r.id r.params
    return ⟨client, none, false⟩
  | .configure => .ok ⟨client.sendResult r.id (.obj []), none, false⟩
  | .getTransactions => .ok ⟨client.sendResult r.id (.arr []), none, false⟩
  | .other => .ok ⟨handleOther client r.id, none, false⟩

def handleLine (clock : Clock) (mapJobs : List StratumJob) (client : StratumClient D)
    (strLine : StdString) : Except Fault (Handled D) :=
  match parseRequest env strLine with
  | some r => handleRequest env clock mapJobs client r
  | none => .ok ⟨client, none, false⟩

end

section

variable {env : StratumEnv D} {clock : Clock} {mapJobs : List StratumJob}
  {client : StratumClient D} {strLine : StdString} {handled : Handled D}

/-- The payout script that a line asks for, if it is a `mining.authorize` with a
valid address. -/
def requestedScript (env : StratumEnv D) (strLine : StdString) : Option CScript :=
  match parseRequest env strLine with
  | some ⟨_, .authorize, params⟩ => authorizedScript env params
  | _ => none

/-- The strings that a line submits, if it is a `mining.submit` that has them. -/
def submittedParams (env : StratumEnv D) (strLine : StdString) : Option SubmitParams :=
  match parseRequest env strLine with
  | some ⟨_, .submit, params⟩ =>
    if params.length < 5 then none else (getSubmitParams params).toOption
  | _ => none

/-- `client'` has the extranonce of `client` and was announced the same work. -/
structure SameMiner (client client' : StratumClient D) : Prop where
  nExtraNonce1 : client'.nExtraNonce1 = client.nExtraNonce1
  announced : client'.announced = client.announced

/-- No share is accepted, no key is remembered, and the payout script changes only
as `script` asks for. -/
structure Quiet (client : StratumClient D) (script : Option CScript) (handled : Handled D) :
    Prop where
  sameMiner : SameMiner client handled.client
  setDupes : handled.client.setDupes = client.setDupes
  payoutScript : handled.client.payoutScript = script.getD client.payoutScript
  share : handled.share = none

theorem quiet_reply (id result error : UniValue) {fLookup : Bool} :
    Quiet client none ⟨client.send (.reply id result error), none, fLookup⟩ :=
  ⟨⟨rfl, client.announced_send_reply id result error⟩, rfl, rfl, rfl⟩

theorem handleSuggestDifficulty_quiet {id : UniValue} {client' : StratumClient D}
    (h : handleSuggestDifficulty env clock client id params = .ok client') :
    Quiet client none ⟨client', none, false⟩ := by
  unfold handleSuggestDifficulty at h
  split at h
  · obtain ⟨dSuggested, -, hclient⟩ := bind_eq_ok.1 h
    cases hclient
    unfold suggestDifficulty
    split_ifs
    · refine ⟨⟨rfl, ?_⟩, rfl, rfl, rfl⟩
      simp [StratumClient.sendResult, StratumClient.announced, StratumClient.send, Message.notify?]
    · exact quiet_reply id _ _
  · cases h
    exact quiet_reply id _ _

theorem handleAuthorize_quiet (id : UniValue) :
    Quiet client (authorizedScript env params)
      ⟨handleAuthorize env client id params, none, false⟩ := by
  unfold handleAuthorize
  dsimp only
  cases authorizedScript env params with
  | some script => exact ⟨⟨rfl, client.announced_send_reply _ _ _⟩, rfl, rfl, rfl⟩
  | none => exact ⟨⟨rfl, client.announced_send_reply _ _ _⟩, rfl, rfl, rfl⟩

theorem handleLine_cases (h : handleLine env clock mapJobs client strLine = .ok handled) :
    (∃ id p, submittedParams env strLine = some p ∧ requestedScript env strLine = none ∧
        (handled.client, handled.share) = submit env clock mapJobs client id p) ∨
      Quiet client (requestedScript env strLine) handled := by
  unfold handleLine at h
  unfold requestedScript submittedParams
  split at h
  · rename_i r hr
    obtain ⟨id, method, params⟩ := r
    rw [hr]
    cases method with
    | submit =>
      obtain ⟨result, hsubmit, hhandled⟩ := bind_eq_ok.1 h
      cases hhandled
      unfold handleSubmit at hsubmit
      split_ifs at hsubmit with hlen
      · cases hsubmit
        exact .inr ⟨⟨rfl, client.announced_send_reply _ _ _⟩, rfl, rfl, rfl⟩
      · obtain ⟨p, hp, hresult⟩ := bind_eq_ok.1 hsubmit
        cases hresult
        exact .inl ⟨id, p, by simp [hlen, hp, Except.toOption], rfl, rfl⟩
    | suggestDifficulty =>
      obtain ⟨client', hsuggest, hhandled⟩ := bind_eq_ok.1 h
      cases hhandled
      exact .inr (handleSuggestDifficulty_quiet hsuggest)
    | subscribe =>
      cases h
      refine .inr ⟨⟨rfl, ?_⟩, rfl, rfl, rfl⟩
      simp [handleSubscribe, StratumClient.sendResult, StratumClient.announced,
        StratumClient.send, Message.notify?]
    | authorize =>
      cases h
      exact .inr (handleAuthorize_quiet id)
    | other =>
      cases h
      unfold handleOther
      dsimp only
      split
      · exact .inr ⟨⟨rfl, rfl⟩, rfl, rfl, rfl⟩
      · exact .inr (quiet_reply _ _ _)
    | _ =>
      cases h
      exact .inr (quiet_reply id _ _)
  · rename_i hr
    cases h
    rw [hr]
    exact .inr ⟨⟨rfl, rfl⟩, rfl, rfl, rfl⟩

section

variable (env : StratumEnv D) (clock : Clock) (mapJobs : List StratumJob)
  (client : StratumClient D) (id : UniValue) (p : SubmitParams)

theorem submit_keeps :
    SameMiner client (submit env clock mapJobs client id p).1 ∧
      (submit env clock mapJobs client id p).1.payoutScript = client.payoutScript := by
  unfold submit
  split
  · exact ⟨⟨rfl, client.announced_send_reply _ _ _⟩, rfl⟩
  · split_ifs
    · exact ⟨⟨rfl, client.announced_send_reply _ _ _⟩, rfl⟩
    · exact ⟨⟨rfl, client.announced_send_reply _ _ _⟩, rfl⟩
    · dsimp only
      split <;> exact ⟨⟨rfl, client.announced_send_reply _ _ _⟩, rfl⟩

theorem submit_dupes :
    (submit env clock mapJobs client id p).1.setDupes = (client.remember p.strKey).setDupes ∨
      (submit env clock mapJobs client id p).1.setDupes = client.setDupes ∧
        (submit env clock mapJobs client id p).2 = none := by
  unfold submit
  split
  · exact .inr ⟨rfl, rfl⟩
  · split_ifs
    · exact .inr ⟨rfl, rfl⟩
    · exact .inr ⟨rfl, rfl⟩
    · dsimp only
      split <;> exact .inl rfl

end

section

variable (h : handleLine env clock mapJobs client strLine = .ok handled)
include h

theorem handleLine_keeps :
    SameMiner client handled.client ∧
      handled.client.payoutScript = (requestedScript env strLine).getD client.payoutScript := by
  rcases handleLine_cases h with ⟨id, p, -, hscript, hsubmit⟩ | hquiet
  · have hkeeps := submit_keeps env clock mapJobs client id p
    rw [← hsubmit] at hkeeps
    rw [hscript]
    exact hkeeps
  · exact ⟨hquiet.sameMiner, hquiet.payoutScript⟩

theorem handleLine_dupes :
    (∃ p, submittedParams env strLine = some p ∧
        handled.client.setDupes = (client.remember p.strKey).setDupes) ∨
      handled.client.setDupes = client.setDupes ∧ handled.share = none := by
  rcases handleLine_cases h with ⟨id, p, hp, -, hsubmit⟩ | hquiet
  · have hdupes := submit_dupes env clock mapJobs client id p
    rw [← hsubmit] at hdupes
    exact hdupes.imp_left fun hkey => ⟨p, hp, hkey⟩
  · exact .inr ⟨hquiet.setDupes, hquiet.share⟩

theorem handleLine_share {share : Share} (hshare : handled.share = some share) :
    ∃ p, submittedParams env strLine = some p ∧ Accepts env clock mapJobs client p share := by
  rcases handleLine_cases h with ⟨id, p, hp, -, hsubmit⟩ | hquiet
  · have hsecond := congrArg Prod.snd hsubmit
    exact ⟨p, hp, submit_accepts (hsecond.symm.trans hshare)⟩
  · exact nomatch hquiet.share.symm.trans hshare

end

end

end Stratum

end Coinyecoin
