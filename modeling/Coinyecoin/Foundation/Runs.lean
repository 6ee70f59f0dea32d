import Coinyecoin.Foundation.Computation

/-!
# Runs of a state machine

A run feeds a list of events to a step function. `AllMeet` says that each event
of a run meets a condition in the state it arrives in; what every such step
keeps, the run keeps. A step may also fail, which ends the run; `AllMeetM` is
the same condition for such runs.
-/

namespace Foundation

open List

section

variable {σ ε : Type} (step : σ → ε → σ)

def runEvents (s : σ) (events : List ε) : σ := events.foldl step s

/-- Each event meets `ok` where it arrives. -/
def AllMeet (ok : σ → ε → Prop) : σ → List ε → Prop
  | _, [] => True
  | s, e :: events => ok s e ∧ AllMeet ok (step s e) events

instance instDecidableAllMeet (ok : σ → ε → Prop) [∀ s e, Decidable (ok s e)] (s : σ) :
    ∀ events, Decidable (AllMeet step ok s events)
  | [] => isTrue trivial
  | e :: events =>
    have := instDecidableAllMeet ok (step s e) events
    inferInstanceAs (Decidable (ok s e ∧ AllMeet step ok (step s e) events))

variable {step} {ok : σ → ε → Prop} {P : σ → Prop} {s : σ} {events : List ε}

theorem runEvents_keeps (hstep : ∀ s e, ok s e → P s → P (step s e)) (hs : P s)
    (hmeet : AllMeet step ok s events) : P (runEvents step s events) := by
  induction events generalizing s with
  | nil => exact hs
  | cons e events ih => exact ih (hstep s e hmeet.1 hs) hmeet.2

theorem runEvents_invariant (hstep : ∀ s e, P s → P (step s e))
    (events : List ε) (hs : P s) : P (runEvents step s events) :=
  foldlRecOn events step hs fun s hs e _ => hstep s e hs

theorem forall_prefix_iff_allMeet (hstep : ∀ s e, P s → (P (step s e) ↔ ok s e)) (hs : P s) :
    (∀ done, done <+: events → P (runEvents step s done)) ↔ AllMeet step ok s events := by
  induction events generalizing s with
  | nil =>
    refine iff_of_true (fun done hdone => ?_) trivial
    obtain rfl := prefix_nil.1 hdone
    exact hs
  | cons e events ih =>
    constructor
    · intro h
      have hs' : P (step s e) := h [e] ⟨events, rfl⟩
      refine ⟨(hstep s e hs).1 hs', (ih hs').1 fun done hdone => ?_⟩
      exact h (e :: done) (cons_prefix_cons.2 ⟨rfl, hdone⟩)
    · rintro ⟨hok, hmeet⟩ done hdone
      cases done with
      | nil => exact hs
      | cons e' done =>
        obtain ⟨rfl, hrest⟩ := cons_prefix_cons.1 hdone
        exact (ih ((hstep s e' hs).2 hok)).2 hmeet done hrest

end

section

variable {σ ε δ : Type} (step : σ → ε → Except δ σ)

/-- Each event meets `ok` where it arrives, as far as the run comes. -/
def AllMeetM (ok : σ → ε → Prop) : σ → List ε → Prop
  | _, [] => True
  | s, e :: events => ok s e ∧ ∀ s', step s e = .ok s' → AllMeetM ok s' events

variable {step} {I : σ → Prop} {s : σ} {events : List ε} {ok : σ → ε → Prop} {P : σ → Prop}

theorem allMeetM_congr {ok ok' : σ → ε → Prop} (hkeep : ∀ s e s', I s → step s e = .ok s' → I s')
    (hiff : ∀ s e, I s → (ok s e ↔ ok' s e)) (hs : I s) :
    AllMeetM step ok s events ↔ AllMeetM step ok' s events := by
  induction events generalizing s with
  | nil => exact Iff.rfl
  | cons e events ih =>
    refine and_congr (hiff s e hs) (forall_congr' fun s' => ?_)
    exact forall_congr' fun hfirst => ih (hkeep s e s' hs hfirst)

theorem foldlM_of_allMeetM (hstep : ∀ s e, ok s e → P s → ∃ s', step s e = .ok s' ∧ P s')
    (hs : P s) (hmeet : AllMeetM step ok s events) :
    ∃ s', events.foldlM step s = .ok s' ∧ P s' := by
  induction events generalizing s with
  | nil => exact ⟨s, rfl, hs⟩
  | cons e events ih =>
    obtain ⟨s₁, hfirst, hs₁⟩ := hstep s e hmeet.1 hs
    obtain ⟨s₂, hrest, hs₂⟩ := ih hs₁ (hmeet.2 s₁ hfirst)
    refine ⟨s₂, ?_, hs₂⟩
    rw [foldlM_cons, hfirst, ok_bind, hrest]

theorem ends_foldlM_of_allMeetM {Stop : δ → Prop}
    (hstep : ∀ s e, ok s e → P s → Ends Stop P (step s e)) (hs : P s)
    (hmeet : AllMeetM step ok s events) : Ends Stop P (events.foldlM step s) := by
  induction events generalizing s with
  | nil => exact hs
  | cons e events ih =>
    have hfirst := hstep s e hmeet.1 hs
    have hrest := hmeet.2
    rw [foldlM_cons]
    cases hresult : step s e with
    | error stop =>
      rw [hresult] at hfirst
      exact hfirst
    | ok s' =>
      rw [hresult] at hfirst
      exact ih hfirst (hrest s' hresult)

theorem forall_prefix_iff_allMeetM (hstep : ∀ s e s', P s → step s e = .ok s' → (P s' ↔ ok s e))
    (hfail : ∀ s e err, P s → step s e = .error err → ok s e) (hs : P s) :
    (∀ done, done <+: events → ∀ s', done.foldlM step s = .ok s' → P s') ↔
      AllMeetM step ok s events := by
  induction events generalizing s with
  | nil =>
    refine iff_of_true (fun done hdone s' hrun => ?_) trivial
    obtain rfl := prefix_nil.1 hdone
    cases hrun
    exact hs
  | cons e events ih =>
    have hcons : ∀ {s₁}, step s e = .ok s₁ → ∀ done : List ε,
        (e :: done).foldlM step s = done.foldlM step s₁ := by
      intro s₁ hfirst done
      rw [foldlM_cons, hfirst, ok_bind]
    refine ⟨fun h => ?_, fun ⟨hok, hmeet⟩ done hdone s' hrun => ?_⟩
    · refine ⟨?_, fun s₁ hfirst => ?_⟩
      · cases hfirst : step s e with
        | error err => exact hfail s e err hs hfirst
        | ok s₁ =>
          refine (hstep s e s₁ hs hfirst).1 (h [e] ⟨events, rfl⟩ s₁ ?_)
          rw [hcons hfirst]
          rfl
      · have hs₁ : P s₁ := by
          refine h [e] ⟨events, rfl⟩ s₁ ?_
          rw [hcons hfirst]
          rfl
        refine (ih hs₁).1 fun done hdone s' hrun => ?_
        refine h (e :: done) (cons_prefix_cons.2 ⟨rfl, hdone⟩) s' ?_
        rw [hcons hfirst, hrun]
    · cases done with
      | nil =>
        cases hrun
        exact hs
      | cons e' done =>
        obtain ⟨rfl, hrest'⟩ := cons_prefix_cons.1 hdone
        rw [foldlM_cons, bind_eq_ok] at hrun
        obtain ⟨s₁, hfirst, hrest⟩ := hrun
        have hs₁ := (hstep s e' s₁ hs hfirst).2 hok
        exact (ih hs₁).2 (hmeet s₁ hfirst) done hrest' s' hrest

end

end Foundation
