import Mathlib.Algebra.BigOperators.Fin
import Mathlib.Data.UInt
import Mathlib.Tactic.Abel

/-!
# The check queue

`CCheckQueue`: a master adds checks to a stack, from which it and any number of
workers take batches. The threads meet in the critical section at the head of
`Loop`; between two visits a thread evaluates its batch on its own. A thread that
waits may be woken at any time. `nIdle` and `nTotal`, which count threads, are
natural numbers; `nTodo` is the 32-bit number of the source.
-/

namespace Coinyecoin

open List

/-- Where a thread is in `Loop`: outside, before its first critical section, in `cond.wait`, or
between two critical sections with a batch, of which the checks in `rest` are still to be
evaluated. -/
inductive LoopPhase (T : Type) where
  | outside
  | entering
  | waiting
  | working (batch rest : List T) (fOk : Bool)
deriving DecidableEq, Repr

/-- The fields that the mutex protects. The head of `queue` is `queue.back()`. -/
structure CCheckQueue (T : Type) where
  queue : List T
  nIdle : ℕ
  nTotal : ℕ
  fAllOk : Bool
  nTodo : UInt32
  fQuit : Bool
  nBatchSize : UInt32
deriving DecidableEq, Repr

namespace CCheckQueue

variable {T : Type}

def init (nBatchSizeIn : UInt32) : CCheckQueue T := ⟨[], 0, 0, true, 0, false, nBatchSizeIn⟩

def add (q : CCheckQueue T) (vChecks : List T) : CCheckQueue T :=
  { q with
    queue := vChecks.reverse ++ q.queue
    nTodo := q.nTodo + UInt32.ofNat vChecks.length }

def nNow (q : CCheckQueue T) : ℕ :=
  max 1 (min q.nBatchSize.toNat
    (UInt32.ofNat q.queue.length / UInt32.ofNat (q.nTotal + q.nIdle + 1)).toNat)

/-- The loop on an empty queue, and then the batch that is taken: the phase the thread leaves the
critical section in, and what `Loop` returns if it does. -/
def serve (q : CCheckQueue T) (fMaster : Bool) : CCheckQueue T × LoopPhase T × Option Bool :=
  if q.queue.isEmpty then
    if (fMaster || q.fQuit) && q.nTodo == 0 then
      ({ q with nTotal := q.nTotal - 1, fAllOk := fMaster || q.fAllOk }, .outside, some q.fAllOk)
    else ({ q with nIdle := q.nIdle + 1 }, .waiting, none)
  else
    ({ q with queue := q.queue.drop q.nNow },
      .working (q.queue.take q.nNow) (q.queue.take q.nNow) q.fAllOk, none)

/-- The critical section up to the loop on an empty queue; a thread outside `Loop` or in the
middle of its batch is not in front of it. -/
def cleanUp (q : CCheckQueue T) : LoopPhase T → Option (CCheckQueue T)
  | .outside => none
  | .entering => some { q with nTotal := q.nTotal + 1 }
  | .waiting => some { q with nIdle := q.nIdle - 1 }
  | .working batch [] fOk => some { q with
      fAllOk := q.fAllOk && fOk
      nTodo := q.nTodo - UInt32.ofNat batch.length }
  | .working _ (_ :: _) _ => none

end CCheckQueue

/-- The queue with its threads: the master is `none`, the workers are numbered. -/
structure CheckThreads (N : ℕ) (T : Type) where
  shared : CCheckQueue T
  phase : Option (Fin N) → LoopPhase T

/-- What can happen next: the master adds a batch or calls `Wait`, a thread goes through the
critical section, or evaluates one more check. -/
inductive CheckEvent (N : ℕ) (T : Type) where
  | add (vChecks : List T)
  | wait
  | critical (thread : Option (Fin N))
  | check (thread : Option (Fin N))

namespace CheckThreads

variable {N : ℕ} {T : Type}

def init (N : ℕ) (T : Type) (nBatchSizeIn : UInt32) : CheckThreads N T where
  shared := .init nBatchSizeIn
  phase thread := if thread.isSome then .entering else .outside

def setPhase (s : CheckThreads N T) (thread : Option (Fin N)) (phase : LoopPhase T) :
    CheckThreads N T :=
  { s with phase := Function.update s.phase thread phase }

@[simp] theorem setPhase_self (s : CheckThreads N T) (thread : Option (Fin N))
    (phase : LoopPhase T) : (s.setPhase thread phase).phase thread = phase := by
  simp [setPhase]

theorem setPhase_of_ne {s : CheckThreads N T} {thread other : Option (Fin N)} (h : other ≠ thread)
    (phase : LoopPhase T) : (s.setPhase thread phase).phase other = s.phase other := by
  simp [setPhase, h]

/-- One step, if it is possible, with what `Wait` returns if the step ends it. -/
def step (eval : T → Bool) (s : CheckThreads N T) :
    CheckEvent N T → Option (CheckThreads N T × Option Bool)
  | .add vChecks =>
    match s.phase none with
    | .outside => some ({ s with shared := s.shared.add vChecks }, none)
    | _ => none
  | .wait =>
    match s.phase none with
    | .outside => some (s.setPhase none .entering, none)
    | _ => none
  | .critical thread => do
    let q ← s.shared.cleanUp (s.phase thread)
    let (q, phase, fRet) := q.serve thread.isNone
    return (⟨q, Function.update s.phase thread phase⟩, if thread.isNone then fRet else none)
  | .check thread =>
    match s.phase thread with
    | .working batch (check :: rest) fOk =>
      some (s.setPhase thread (.working batch rest (if fOk then eval check else fOk)), none)
    | _ => none

def addedAfter (added : List T) (event : CheckEvent N T) (fRet : Option Bool) : List T :=
  if fRet.isSome then []
  else match event with
    | .add vChecks => added ++ vChecks
    | _ => added

/-- What the threads lead to, with the checks added since the previous `Wait`, as long as those
meet `limit`. -/
inductive Reached (eval : T → Bool) (nBatchSize : UInt32) (limit : List T → Prop) :
    CheckThreads N T → List T → Prop
  | init : Reached eval nBatchSize limit (init N T nBatchSize) []
  | step {s s' : CheckThreads N T} {added : List T} {event : CheckEvent N T}
      {fRet : Option Bool} : Reached eval nBatchSize limit s added →
      s.step eval event = some (s', fRet) → limit (addedAfter added event fRet) →
      Reached eval nBatchSize limit s' (addedAfter added event fRet)

section

variable {eval : T → Bool}
  {s : CheckThreads N T} {added : List T} {thread : Option (Fin N)} {phase : LoopPhase T}
  {q : CCheckQueue T} {added' : List T} {fRet : Option Bool}

def batchOf : LoopPhase T → List T
  | .working batch _ _ => batch
  | _ => []

/-- What the local variables of a thread say: `fOk` is true as long as the checks evaluated were,
and a failure among the checks added is behind its being false. -/
def Evaluated (eval : T → Bool) (added : List T) : LoopPhase T → Prop
  | .working batch rest fOk => batch ≠ [] ∧
      (∃ done, batch = done ++ rest ∧ (fOk = true → ∀ check ∈ done, eval check = true)) ∧
      (fOk = false → ∃ check ∈ added, eval check = false)
  | _ => True

/-- Every check added is finished, queued or in one batch, `nTodo` counts the latter two, and
`fAllOk` is about the finished ones. -/
structure Sound (eval : T → Bool) (s : CheckThreads N T) (added : List T) : Prop where
  finished : ∃ finished : Multiset T, (added : Multiset T) =
      finished + s.shared.queue + ∑ thread, (batchOf (s.phase thread) : Multiset T) ∧
    (s.shared.fAllOk = true → ∀ check ∈ finished, eval check = true)
  failed : s.shared.fAllOk = false → ∃ check ∈ added, eval check = false
  todo : s.shared.nTodo.toNat =
    s.shared.queue.length + ∑ thread, (batchOf (s.phase thread)).length
  evaluated : ∀ thread, Evaluated eval added (s.phase thread)

theorem sum_setPhase {M : Type} [AddCommMonoid M] (f : LoopPhase T → M) (s : CheckThreads N T)
    (thread : Option (Fin N)) (phase : LoopPhase T) :
    ∑ i, f ((s.setPhase thread phase).phase i) + f (s.phase thread) =
      ∑ i, f (s.phase i) + f phase := by
  have hmem := Finset.mem_univ thread
  have hupdate : ∀ i, f ((s.setPhase thread phase).phase i) =
      Function.update (fun i => f (s.phase i)) thread (f phase) i := fun i =>
    Function.apply_update (fun _ => f) s.phase thread phase i
  rw [Finset.sum_congr rfl fun i _ => hupdate i, Finset.sum_update_of_mem hmem,
    Finset.sum_eq_add_sum_sdiff_singleton_of_mem hmem fun i => f (s.phase i)]
  abel

variable {nBatchSize : UInt32}

theorem sound_init : Sound eval (init N T nBatchSize) [] where
  finished := ⟨0, by simp [init, CCheckQueue.init, batchOf], by simp⟩
  failed h := nomatch h
  todo := by simp [init, CCheckQueue.init, batchOf]
  evaluated thread := by
    cases thread with
    | none => trivial
    | some worker => trivial

theorem Evaluated.mono (hsub : added ⊆ added')
    (h : Evaluated eval added phase) : Evaluated eval added' phase := by
  cases phase with
  | working batch rest fOk =>
    obtain ⟨hne, hdone, hfailed⟩ := h
    refine ⟨hne, hdone, fun hfOk => ?_⟩
    obtain ⟨check, hcheck, hfalse⟩ := hfailed hfOk
    exact ⟨check, hsub hcheck, hfalse⟩
  | _ => trivial

theorem Evaluated.of_batchOf_eq_nil (h : Evaluated eval added phase) (hbatch : batchOf phase = []) :
    Evaluated eval added' phase := by
  cases phase with
  | working batch rest fOk => exact absurd hbatch h.1
  | _ => trivial

theorem Sound.length_le (h : Sound eval s added) :
    s.shared.queue.length + ∑ thread, (batchOf (s.phase thread)).length ≤ added.length := by
  obtain ⟨finished, hadded, -⟩ := h.finished
  have hcard := congrArg Multiset.card hadded
  simp only [Multiset.card_add, Multiset.coe_card, Multiset.card_sum] at hcard
  omega

theorem sound_add {added vChecks : List T} (h : Sound eval s added)
    (hlimit : (added ++ vChecks).length < 2 ^ 32) :
    Sound eval { s with shared := s.shared.add vChecks } (added ++ vChecks) where
  finished := by
    obtain ⟨finished, hadded, hok⟩ := h.finished
    refine ⟨finished, ?_, hok⟩
    rw [← Multiset.coe_add, hadded, CCheckQueue.add, ← Multiset.coe_add, Multiset.coe_reverse]
    abel
  failed hfalse := by
    obtain ⟨check, hcheck, hfailed⟩ := h.failed hfalse
    exact ⟨check, mem_append_left _ hcheck, hfailed⟩
  todo := by
    have hle := h.length_le
    rw [length_append] at hlimit
    have htodo : (s.shared.nTodo + UInt32.ofNat vChecks.length).toNat =
        s.shared.nTodo.toNat + vChecks.length := by
      rw [UInt32.toNat_add, UInt32.toNat_ofNat', h.todo]
      omega
    change (s.shared.nTodo + UInt32.ofNat vChecks.length).toNat =
      (vChecks.reverse ++ s.shared.queue).length + ∑ thread, (batchOf (s.phase thread)).length
    rw [htodo, h.todo, length_append, length_reverse]
    omega
  evaluated thread := (h.evaluated thread).mono (subset_append_left added vChecks)

theorem sound_setPhase (h : Sound eval s added) (hbatch : batchOf phase = batchOf (s.phase thread))
    (hphase : Evaluated eval added phase) : Sound eval (s.setPhase thread phase) added where
  finished := by
    obtain ⟨finished, hadded, hok⟩ := h.finished
    have hsum := sum_setPhase (fun phase => (batchOf phase : Multiset T)) s thread phase
    rw [hbatch] at hsum
    exact ⟨finished, by rw [add_right_cancel hsum]; exact hadded, hok⟩
  failed := h.failed
  todo := by
    have hsum := sum_setPhase (fun phase => (batchOf phase).length) s thread phase
    rw [hbatch] at hsum
    rw [add_right_cancel hsum]
    exact h.todo
  evaluated other := by
    by_cases hother : other = thread
    · rw [hother, setPhase_self]
      exact hphase
    · rw [setPhase_of_ne hother]
      exact h.evaluated other

theorem sound_check (h : Sound eval s added) {batch rest : List T} {check : T} {fOk : Bool}
    (hphase : s.phase thread = .working batch (check :: rest) fOk) :
    Sound eval (s.setPhase thread (.working batch rest (if fOk then eval check else fOk)))
      added := by
  have hbefore := h.evaluated thread
  rw [hphase] at hbefore
  obtain ⟨hne, ⟨done, hbatch, hdone⟩, hfailed⟩ := hbefore
  have hmem : check ∈ added := by
    obtain ⟨finished, hadded, -⟩ := h.finished
    have hin : check ∈ ∑ other, (batchOf (s.phase other) : Multiset T) := by
      refine Multiset.mem_sum.2 ⟨thread, Finset.mem_univ thread, ?_⟩
      simp [hphase, batchOf, hbatch]
    rw [← Multiset.mem_coe, hadded]
    exact Multiset.mem_add.2 (.inr hin)
  refine sound_setPhase h (by rw [hphase]; rfl) ⟨hne, ⟨done ++ [check], ?_, fun hok => ?_⟩, ?_⟩
  · rw [hbatch, append_assoc, singleton_append]
  · cases fOk with
    | false => exact nomatch hok
    | true =>
      intro other hother
      rcases mem_append.1 hother with hother | hother
      · exact hdone rfl other hother
      · rw [mem_singleton.1 hother]
        exact hok
  · intro hfalse
    cases fOk with
    | false => exact hfailed rfl
    | true => exact ⟨check, hmem, hfalse⟩

theorem sound_cleanUp (h : Sound eval s added) (hlimit : added.length < 2 ^ 32)
    (hclean : s.shared.cleanUp (s.phase thread) = some q) :
    Sound eval ((CheckThreads.mk q s.phase).setPhase thread .entering) added := by
  cases hphase : s.phase thread with
  | outside =>
    rw [hphase] at hclean
    exact nomatch hclean
  | entering =>
    rw [hphase] at hclean
    cases hclean
    have hsame : Sound eval (CheckThreads.mk { s.shared with nTotal := s.shared.nTotal + 1 }
        s.phase) added := ⟨h.finished, h.failed, h.todo, h.evaluated⟩
    exact sound_setPhase hsame (by simp [hphase]) trivial
  | waiting =>
    rw [hphase] at hclean
    cases hclean
    have hsame : Sound eval (CheckThreads.mk { s.shared with nIdle := s.shared.nIdle - 1 }
        s.phase) added := ⟨h.finished, h.failed, h.todo, h.evaluated⟩
    exact sound_setPhase hsame (by simp [hphase, batchOf]) trivial
  | working batch rest fOk =>
    cases rest with
    | cons check rest =>
      rw [hphase] at hclean
      exact nomatch hclean
    | nil =>
      rw [hphase] at hclean
      cases hclean
      have hbefore := h.evaluated thread
      rw [hphase] at hbefore
      obtain ⟨-, ⟨done, hbatch, hdone⟩, hfailed⟩ := hbefore
      rw [append_nil] at hbatch
      refine ⟨?_, fun hfalse => ?_, ?_, fun other => ?_⟩
      · obtain ⟨finished, hadded, hok⟩ := h.finished
        refine ⟨finished + batch, ?_, fun htrue check hcheck => ?_⟩
        · have hsum := sum_setPhase (fun phase => (batchOf phase : Multiset T)) s thread
            .entering
          rw [hphase] at hsum
          change (added : Multiset T) = finished + batch + s.shared.queue +
            ∑ i, (batchOf ((s.setPhase thread .entering).phase i) : Multiset T)
          rw [hadded]
          change _ = ∑ i, (batchOf (s.phase i) : Multiset T) + 0 at hsum
          rw [add_zero] at hsum
          rw [← hsum]
          change _ + (_ + (batch : Multiset T)) = _
          abel
        · have hboth : s.shared.fAllOk = true ∧ fOk = true := Bool.and_eq_true_iff.1 htrue
          rcases Multiset.mem_add.1 hcheck with hcheck | hcheck
          · exact hok hboth.1 check hcheck
          · rw [hbatch] at hcheck
            exact hdone hboth.2 check hcheck
      · have heither : s.shared.fAllOk = false ∨ fOk = false := Bool.and_eq_false_iff.1 hfalse
        exact heither.elim h.failed hfailed
      · have hsum := sum_setPhase (fun phase => (batchOf phase).length) s thread .entering
        have hle := h.length_le
        have htodo := h.todo
        rw [hphase] at hsum
        change ∑ i, (batchOf ((s.setPhase thread .entering).phase i)).length + batch.length =
          ∑ i, (batchOf (s.phase i)).length + 0 at hsum
        change (s.shared.nTodo - UInt32.ofNat batch.length).toNat = s.shared.queue.length +
          ∑ i, (batchOf ((s.setPhase thread .entering).phase i)).length
        rw [UInt32.toNat_sub, UInt32.toNat_ofNat']
        omega
      · by_cases hother : other = thread
        · rw [hother, setPhase_self]
          trivial
        · rw [setPhase_of_ne hother]
          exact h.evaluated other

theorem nNow_le (hne : q.queue ≠ []) : 1 ≤ q.nNow ∧ q.nNow ≤ q.queue.length := by
  have hshare : (UInt32.ofNat q.queue.length / UInt32.ofNat (q.nTotal + q.nIdle + 1)).toNat ≤
      q.queue.length := by
    rw [UInt32.toNat_div, UInt32.toNat_ofNat']
    exact le_trans (Nat.div_le_self _ _) (Nat.mod_le _ _)
  exact ⟨le_max_left _ _, max_le (length_pos_iff.2 hne) (le_trans (min_le_right _ _) hshare)⟩

theorem sound_take (h : Sound eval s added) (hthread : s.phase thread = .entering) {n : ℕ} (hn : 1 ≤ n)
    (hle : n ≤ s.shared.queue.length) :
    Sound eval ((CheckThreads.mk { s.shared with queue := s.shared.queue.drop n }
      s.phase).setPhase thread (.working (s.shared.queue.take n) (s.shared.queue.take n)
        s.shared.fAllOk)) added where
  finished := by
    obtain ⟨finished, hadded, hok⟩ := h.finished
    refine ⟨finished, ?_, hok⟩
    have hsum := sum_setPhase (fun phase => (batchOf phase : Multiset T)) s thread
      (.working (s.shared.queue.take n) (s.shared.queue.take n) s.shared.fAllOk)
    rw [hthread] at hsum
    change ∑ i, _ + 0 = ∑ i, (batchOf (s.phase i) : Multiset T) + (s.shared.queue.take n) at hsum
    rw [add_zero] at hsum
    change (added : Multiset T) = finished + (s.shared.queue.drop n) +
      ∑ i, (batchOf ((s.setPhase thread (.working _ _ _)).phase i) : Multiset T)
    have hsplit : (s.shared.queue : Multiset T) =
        (s.shared.queue.take n) + (s.shared.queue.drop n) := by
      rw [Multiset.coe_add, take_append_drop]
    rw [hsum, hadded, hsplit]
    abel
  failed := h.failed
  todo := by
    have hsum := sum_setPhase (fun phase => (batchOf phase).length) s thread
      (.working (s.shared.queue.take n) (s.shared.queue.take n) s.shared.fAllOk)
    rw [hthread] at hsum
    change ∑ i, _ + 0 = ∑ i, (batchOf (s.phase i)).length + (s.shared.queue.take n).length at hsum
    have htodo := h.todo
    change s.shared.nTodo.toNat = (s.shared.queue.drop n).length +
      ∑ i, (batchOf ((s.setPhase thread (.working _ _ _)).phase i)).length
    rw [length_take] at hsum
    rw [length_drop]
    omega
  evaluated other := by
    by_cases hother : other = thread
    · rw [hother, setPhase_self]
      refine ⟨?_, ⟨[], rfl, fun _ check hcheck => nomatch hcheck⟩, h.failed⟩
      rw [← length_pos_iff, length_take]
      omega
    · rw [setPhase_of_ne hother]
      exact h.evaluated other

theorem Sound.idle (h : Sound eval s added)
    (hqueue : s.shared.queue = []) (htodo : s.shared.nTodo = 0) :
    (∀ thread, batchOf (s.phase thread) = []) ∧
      (s.shared.fAllOk = true ↔ ∀ check ∈ added, eval check = true) := by
  have hzero : ∑ thread, (batchOf (s.phase thread)).length = 0 := by
    have hcount := h.todo
    rw [htodo, hqueue] at hcount
    simpa using hcount.symm
  have hbatch : ∀ thread, batchOf (s.phase thread) = [] := fun thread =>
    length_eq_zero_iff.1 (Finset.sum_eq_zero_iff.1 hzero thread (Finset.mem_univ thread))
  refine ⟨hbatch, fun hok check hcheck => ?_, fun hall => ?_⟩
  · obtain ⟨finished, hadded, hfinished⟩ := h.finished
    have hsame : (added : Multiset T) = finished := by
      rw [hadded, hqueue]
      simp [hbatch]
    exact hfinished hok check (hsame ▸ hcheck)
  · by_contra hfalse
    obtain ⟨check, hcheck, hfailed⟩ := h.failed (Bool.eq_false_iff.2 hfalse)
    rw [hall check hcheck] at hfailed
    exact nomatch hfailed

theorem sound_serve (h : Sound eval s added) (hthread : s.phase thread = .entering)
    (hserve : s.shared.serve thread.isNone = (q, phase, fRet)) :
    (thread = none ∧ ∃ r, fRet = some r ∧
      (r = true ↔ ∀ check ∈ added, eval check = true) ∧
      Sound eval ((CheckThreads.mk q s.phase).setPhase thread phase) [] ∧ q.queue = [] ∧
      ∀ other, batchOf (((CheckThreads.mk q s.phase).setPhase thread phase).phase other) = []) ∨
    ((if thread.isNone then fRet else none) = none ∧
      Sound eval ((CheckThreads.mk q s.phase).setPhase thread phase) added) := by
  have hstay : ∀ {q : CCheckQueue T} {phase : LoopPhase T}, q.queue = s.shared.queue →
      q.fAllOk = s.shared.fAllOk → q.nTodo = s.shared.nTodo → batchOf phase = [] →
      Evaluated eval added phase →
      Sound eval ((CheckThreads.mk q s.phase).setPhase thread phase) added := by
    intro q phase hqueue hok htodo hbatch hphase
    have hsame : Sound eval (CheckThreads.mk q s.phase) added :=
      ⟨by rw [hqueue, hok]; exact h.finished, by rw [hok]; exact h.failed,
        by rw [hqueue, htodo]; exact h.todo, h.evaluated⟩
    exact sound_setPhase hsame (by rw [hbatch, hthread]; rfl) hphase
  rw [CCheckQueue.serve] at hserve
  by_cases hempty : s.shared.queue.isEmpty = true
  · rw [if_pos hempty] at hserve
    by_cases hdone : ((thread.isNone || s.shared.fQuit) && s.shared.nTodo == 0) = true
    · rw [if_pos hdone] at hserve
      cases hserve
      cases thread with
      | some worker => exact .inr ⟨rfl, hstay rfl rfl rfl rfl trivial⟩
      | none =>
        have hqueue : s.shared.queue = [] := isEmpty_iff.1 hempty
        obtain ⟨hbatch, hok⟩ := h.idle hqueue (by simpa using hdone)
        have hfresh : Sound eval (CheckThreads.mk { s.shared with
            nTotal := s.shared.nTotal - 1, fAllOk := true } s.phase) [] :=
          ⟨⟨0, by simp [hqueue, hbatch], by simp⟩, nofun,
            by simpa [hqueue, hbatch] using h.todo, fun other => ?_⟩
        · refine .inl ⟨rfl, _, rfl, hok, sound_setPhase hfresh (by rw [hthread]; rfl) trivial,
            hqueue, fun other => ?_⟩
          by_cases hother : other = none
          · rw [hother, setPhase_self]
            rfl
          · rw [setPhase_of_ne hother]
            exact hbatch other
        · exact (h.evaluated other).of_batchOf_eq_nil (hbatch other)
    · rw [if_neg hdone] at hserve
      cases hserve
      refine .inr ⟨by simp, hstay rfl rfl rfl rfl trivial⟩
  · rw [if_neg hempty] at hserve
    cases hserve
    obtain ⟨hone, hle⟩ := nNow_le fun hnil => hempty (isEmpty_iff.2 hnil)
    exact .inr ⟨by simp, sound_take h hthread hone hle⟩

theorem sound_step {s s' : CheckThreads N T} {event : CheckEvent N T} (h : Sound eval s added)
    (hlimit : added.length < 2 ^ 32) (hstep : s.step eval event = some (s', fRet))
    (hlimit' : (addedAfter added event fRet).length < 2 ^ 32) :
    Sound eval s' (addedAfter added event fRet) ∧ ∀ r, fRet = some r →
      (r = true ↔ ∀ check ∈ added, eval check = true) ∧ s'.shared.queue = [] ∧
        ∀ thread, batchOf (s'.phase thread) = [] := by
  cases event with
  | add vChecks =>
    cases hphase : s.phase none with
    | outside =>
      simp only [step, hphase, Option.some.injEq, Prod.mk.injEq] at hstep
      obtain ⟨rfl, rfl⟩ := hstep
      exact ⟨sound_add h hlimit', nofun⟩
    | _ => simp [step, hphase] at hstep
  | wait =>
    cases hphase : s.phase none with
    | outside =>
      simp only [step, hphase, Option.some.injEq, Prod.mk.injEq] at hstep
      obtain ⟨rfl, rfl⟩ := hstep
      exact ⟨sound_setPhase h (by rw [hphase]; rfl) trivial, nofun⟩
    | _ => simp [step, hphase] at hstep
  | check thread =>
    cases hphase : s.phase thread with
    | working batch rest fOk =>
      cases rest with
      | nil => simp [step, hphase] at hstep
      | cons check rest =>
        simp only [step, hphase, Option.some.injEq, Prod.mk.injEq] at hstep
        obtain ⟨rfl, rfl⟩ := hstep
        exact ⟨sound_check h hphase, nofun⟩
    | _ => simp [step, hphase] at hstep
  | critical thread =>
    simp only [step, Option.bind_eq_bind, Option.bind_eq_some_iff, Option.pure_def,
      Option.some.injEq, Prod.mk.injEq] at hstep
    obtain ⟨q, hclean, rfl, rfl⟩ := hstep
    have hclean := sound_cleanUp h hlimit hclean
    rcases hserve : q.serve thread.isNone with ⟨q', phase, ret⟩
    have hidem : (CheckThreads.mk q' ((CheckThreads.mk q s.phase).setPhase thread
        .entering).phase).setPhase thread phase =
        ⟨q', Function.update s.phase thread phase⟩ := by
      simp [setPhase]
    have hcases := sound_serve hclean (setPhase_self _ thread .entering) hserve
    rw [hidem] at hcases
    rcases hcases with ⟨rfl, r, rfl, hvalue, hsound, hqueue, hbatch⟩ | ⟨hnone, hsound⟩
    · refine ⟨hsound, fun r' hr' => ?_⟩
      obtain rfl : r = r' := by simpa using hr'
      exact ⟨hvalue, hqueue, hbatch⟩
    · simp only [hnone]
      exact ⟨hsound, nofun⟩

theorem reached_sound (h : Reached eval nBatchSize (fun added => added.length < 2 ^ 32) s added) :
    Sound eval s added ∧ added.length < 2 ^ 32 := by
  induction h with
  | init => exact ⟨sound_init, by simp⟩
  | step _ hstep hlimit ih => exact ⟨(sound_step ih.1 ih.2 hstep hlimit).1, hlimit⟩

/-- Whenever `Wait` returns, it returns whether all checks added since the previous one succeed,
and no thread has any of them left. -/
theorem wait_returns {nBatchSize : UInt32} {s s' : CheckThreads N T} {added : List T}
    {event : CheckEvent N T} {fRet : Bool}
    (h : Reached eval nBatchSize (fun added => added.length < 2 ^ 32) s added)
    (hstep : s.step eval event = some (s', some fRet)) :
    (fRet = true ↔ ∀ check ∈ added, eval check = true) ∧ s'.shared.queue = [] ∧
      ∀ thread batch rest fOk, s'.phase thread ≠ .working batch rest fOk := by
  obtain ⟨hsound, hlimit⟩ := reached_sound h
  obtain ⟨hsound', hreturns⟩ := sound_step hsound hlimit hstep (by simp [addedAfter])
  obtain ⟨hvalue, hqueue, hbatch⟩ := hreturns fRet rfl
  refine ⟨hvalue, hqueue, fun thread batch rest fOk hphase => ?_⟩
  have hne := hsound'.evaluated thread
  have hnil := hbatch thread
  rw [hphase] at hne hnil
  exact hne.1 hnil

/-- One worker and the master share two checks, of which one fails. -/
theorem wait_returns_shared : ∃ s s' : CheckThreads 1 Bool,
    Reached id 128 (fun added => added.length < 2 ^ 32) s [true, false] ∧
      s.step id (.critical none) = some (s', some false) ∧ s'.shared.queue = [] := by
  have h₀ : Reached id 128 (fun added => added.length < 2 ^ 32) (init 1 Bool 128) [] := .init
  have h₁ := h₀.step (show step id _ (.add [true, false]) = some (_, none) from rfl) (by decide)
  have h₂ := h₁.step (show step id _ (.critical (some 0)) = some (_, none) from rfl) (by decide)
  have h₃ := h₂.step (show step id _ .wait = some (_, none) from rfl) (by decide)
  have h₄ := h₃.step (show step id _ (.critical none) = some (_, none) from rfl) (by decide)
  have h₅ := h₄.step (show step id _ (.check none) = some (_, none) from rfl) (by decide)
  have h₆ := h₅.step (show step id _ (.critical none) = some (_, none) from rfl) (by decide)
  have h₇ := h₆.step (show step id _ (.check (some 0)) = some (_, none) from rfl) (by decide)
  have h₈ := h₇.step (show step id _ (.critical (some 0)) = some (_, none) from rfl) (by decide)
  refine ⟨_, _, h₈, rfl, ?_⟩
  exact (wait_returns h₈ (show step id _ (.critical none) = some (_, some false) from rfl)).2.1

end

section

variable {nBatchSize : UInt32} {added : List Bool}

theorem reached_checks {s : CheckThreads N Bool} {thread : Option (Fin N)} {batch rest : List Bool}
    (h : Reached id nBatchSize (fun _ => True) (s.setPhase thread (.working batch rest true)) added)
    (hrest : ∀ check ∈ rest, check = true) :
    Reached id nBatchSize (fun _ => True) (s.setPhase thread (.working batch [] true)) added := by
  induction rest with
  | nil => exact h
  | cons check rest ih =>
    obtain ⟨rfl, htail⟩ := forall_mem_cons.1 hrest
    refine ih ?_ htail
    have hstep : (s.setPhase thread (.working batch (true :: rest) true)).step id
        (.check thread) = some (s.setPhase thread (.working batch rest true), none) := by
      simp [step, setPhase]
    exact h.step hstep trivial

theorem critical_takes {s : CheckThreads N T} {eval : T → Bool} {thread : Option (Fin N)}
    {q : CCheckQueue T} (hclean : s.shared.cleanUp (s.phase thread) = some q)
    (hempty : q.queue ≠ []) :
    s.step eval (.critical thread) = some ((CheckThreads.mk
      { q with queue := q.queue.drop q.nNow } s.phase).setPhase thread
        (.working (q.queue.take q.nNow) (q.queue.take q.nNow) q.fAllOk), none) := by
  have hne : ¬ q.queue.isEmpty = true := fun hnil => hempty (isEmpty_iff.1 hnil)
  simp only [step, hclean, Option.bind_eq_bind, Option.bind_some, CCheckQueue.serve, if_neg hne,
    ite_self]
  rfl

theorem critical_returns {s : CheckThreads N T} {eval : T → Bool} {q : CCheckQueue T}
    (hclean : s.shared.cleanUp (s.phase none) = some q) (hempty : q.queue = [])
    (htodo : q.nTodo = 0) :
    s.step eval (.critical none) = some ((CheckThreads.mk
      { q with nTotal := q.nTotal - 1, fAllOk := true } s.phase).setPhase none .outside,
        some q.fAllOk) := by
  simp [step, hclean, CCheckQueue.serve, hempty, htodo, setPhase]

theorem reached_drained {s : CheckThreads N Bool} {q : CCheckQueue Bool}
    (h : Reached id nBatchSize (fun _ => True) s added)
    (hclean : s.shared.cleanUp (s.phase none) = some q) (hok : q.fAllOk = true)
    (hqueue : ∀ check ∈ q.queue, check = true) :
    ∃ (s' : CheckThreads N Bool) (q' : CCheckQueue Bool),
      Reached id nBatchSize (fun _ => True) s' added ∧
      (∀ worker, s'.phase (some worker) = s.phase (some worker)) ∧
      s'.shared.cleanUp (s'.phase none) = some q' ∧ q'.fAllOk = true ∧ q'.queue = [] ∧
      q'.nTodo = q.nTodo - UInt32.ofNat q.queue.length := by
  induction hlen : q.queue.length using Nat.strong_induction_on generalizing s q with
  | h n ih =>
    by_cases hempty : q.queue = []
    · refine ⟨s, q, h, fun _ => rfl, hclean, hok, hempty, ?_⟩
      rw [← hlen, hempty]
      simp
    · obtain ⟨hone, hle⟩ : 1 ≤ q.nNow ∧ q.nNow ≤ q.queue.length := nNow_le hempty
      have hstep := @critical_takes _ _ _ id _ _ hclean hempty
      rw [hok] at hstep
      have hchecked := reached_checks (h.step hstep trivial) fun check hcheck =>
        hqueue check (mem_of_mem_take hcheck)
      have hcount : (q.queue.take q.nNow).length + (n - q.nNow) = n := by
        rw [length_take]
        omega
      obtain ⟨s', q', hreached, hworkers, hclean', hok', hqueue', htodo⟩ :=
        ih (n - q.nNow) (by omega) hchecked (by rw [setPhase_self]; rfl)
          (by simp [setPhase])
          (fun check hcheck => hqueue check (mem_of_mem_drop hcheck))
          (by rw [← hlen]; exact length_drop)
      refine ⟨s', q', hreached, fun worker => ?_, hclean', hok', hqueue', ?_⟩
      · rw [hworkers, setPhase_of_ne (Option.some_ne_none worker)]
      · calc q'.nTodo
            = q.nTodo - UInt32.ofNat (q.queue.take q.nNow).length
                - UInt32.ofNat (n - q.nNow) := htodo
          _ = q.nTodo - UInt32.ofNat ((q.queue.take q.nNow).length + (n - q.nNow)) := by
              rw [UInt32.ofNat_add]
              grind
          _ = q.nTodo - UInt32.ofNat n := by rw [hcount]

theorem nNow_eq {q : CCheckQueue T} {n t : ℕ} (hlen : q.queue.length = n)
    (ht : q.nTotal + q.nIdle + 1 = t) (hbatch : q.nBatchSize = 0xffffffff) :
    q.nNow = max 1 (min 0xffffffff (UInt32.ofNat n / UInt32.ofNat t).toNat) := by
  rw [CCheckQueue.nNow, hlen, ht, hbatch]
  rfl

/-- Three workers hold `2 ^ 32` checks, among them one that fails, when the master finds `nTodo`
to be zero. -/
theorem wait_early {first second third : List Bool} (hfirst : first.length = 4294967294)
    (hsecond : second.length = 2147483647) (hthird : third.length = 6)
    (htrue : ∀ check ∈ first ++ second ++ third, check = true) :
    ∃ s s' : CheckThreads 3 Bool,
      Reached id 0xffffffff (fun _ => True) s (first ++ [false] ++ second ++ third) ∧
        s.step id (.critical none) = some (s', some true) ∧
        false ∈ batchOf (s'.phase (some 0)) := by
  let q₁ : CCheckQueue Bool :=
    { (CCheckQueue.init 0xffffffff).add (first ++ [false]) with nTotal := 1 }
  let q₂ : CCheckQueue Bool :=
    { { q₁ with queue := q₁.queue.drop q₁.nNow }.add second with nTotal := 2 }
  let q₃ : CCheckQueue Bool :=
    { { q₂ with queue := q₂.queue.drop q₂.nNow }.add third with nTotal := 3 }
  let q₄ : CCheckQueue Bool := { q₃ with queue := q₃.queue.drop q₃.nNow, nTotal := 4 }
  -- what the workers take: `2147483647 + 1431655765 + 715827884 = 2 ^ 32`
  have hqueue₁ : q₁.queue = false :: first.reverse := by
    simp [q₁, CCheckQueue.add, CCheckQueue.init]
  have hlen₁ : q₁.queue.length = 4294967295 := by
    rw [hqueue₁, length_cons, length_reverse, hfirst]
  have hnow₁ : q₁.nNow = 2147483647 := (nNow_eq (t := 2) hlen₁ rfl rfl).trans (by decide)
  have hlen₂ : q₂.queue.length = 4294967295 := by
    change (second.reverse ++ q₁.queue.drop q₁.nNow).length = _
    rw [length_append, length_drop, length_reverse, hlen₁, hnow₁, hsecond]
  have hnow₂ : q₂.nNow = 1431655765 := (nNow_eq (t := 3) hlen₂ rfl rfl).trans (by decide)
  have hlen₃ : q₃.queue.length = 2863311536 := by
    change (third.reverse ++ q₂.queue.drop q₂.nNow).length = _
    rw [length_append, length_drop, length_reverse, hlen₂, hnow₂, hthird]
  have hnow₃ : q₃.nNow = 715827884 := (nNow_eq (t := 4) hlen₃ rfl rfl).trans (by decide)
  have hlen₄ : q₄.queue.length = 2147483652 := by
    change (q₃.queue.drop q₃.nNow).length = _
    rw [length_drop, hlen₃, hnow₃]
  have hrest : ∀ check ∈ q₁.queue.drop q₁.nNow, check = true := by
    intro check hcheck
    rw [hqueue₁, hnow₁] at hcheck
    have hfirst := mem_reverse.1 (mem_of_mem_drop (i := 2147483646) hcheck)
    exact htrue check (mem_append_left _ (mem_append_left _ hfirst))
  have hqueue₂ : ∀ check ∈ q₂.queue, check = true := by
    intro check hcheck
    rcases mem_append.1 hcheck with hcheck | hcheck
    · exact htrue check (mem_append_left _
        (mem_append_right _ (mem_reverse.1 hcheck)))
    · exact hrest check hcheck
  have hqueue₃ : ∀ check ∈ q₃.queue, check = true := by
    intro check hcheck
    rcases mem_append.1 hcheck with hcheck | hcheck
    · exact htrue check (mem_append_right _ (mem_reverse.1 hcheck))
    · exact hqueue₂ check (mem_of_mem_drop hcheck)
  have hqueue₄ : ∀ check ∈ q₄.queue, check = true := fun check hcheck =>
    hqueue₃ check (mem_of_mem_drop hcheck)
  have htodo : q₄.nTodo = 2147483652 := by
    change 0 + UInt32.ofNat (first ++ [false]).length + UInt32.ofNat second.length
      + UInt32.ofNat third.length = _
    rw [length_append, hfirst, hsecond, hthird]
    decide
  have h₀ : Reached id 0xffffffff (fun _ => True) (init 3 Bool 0xffffffff) [] := .init
  have h₁ := h₀.step (show step id _ (.add (first ++ [false])) = some (_, none) from rfl) trivial
  have h₂ := h₁.step (@critical_takes _ _ _ id (some 0) q₁ rfl
    (ne_nil_of_length_pos (by omega))) trivial
  have h₃ := h₂.step (show step id _ (.add second) = some (_, none) from rfl) trivial
  have h₄ := h₃.step (@critical_takes _ _ _ id (some 1) q₂ rfl
    (ne_nil_of_length_pos (by omega))) trivial
  have h₅ := h₄.step (show step id _ (.add third) = some (_, none) from rfl) trivial
  have h₆ := h₅.step (@critical_takes _ _ _ id (some 2) q₃ rfl
    (ne_nil_of_length_pos (by omega))) trivial
  have h₇ := h₆.step (show step id _ .wait = some (_, none) from rfl) trivial
  obtain ⟨s, q, hreached, hworkers, hclean, hok, hempty, hzero⟩ :=
    @reached_drained _ _ _ _ q₄ h₇ rfl rfl hqueue₄
  rw [htodo, hlen₄] at hzero
  have hreturns := @critical_returns _ _ s id q hclean hempty hzero
  rw [hok] at hreturns
  refine ⟨s, _, hreached, hreturns, ?_⟩
  rw [setPhase_of_ne (Option.some_ne_none 0), hworkers]
  change false ∈ q₁.queue.take q₁.nNow
  rw [hqueue₁, hnow₁]
  exact mem_cons_self

/-- `nTodo` is a 32-bit number: with `2 ^ 32` checks in the hands of the workers `Wait` returns
true before they are evaluated. -/
theorem wait_returns_early : ∃ (s s' : CheckThreads 3 Bool) (added : List Bool),
    Reached id 0xffffffff (fun _ => True) s added ∧
      s.step id (.critical none) = some (s', some true) ∧
      false ∈ added ∧ false ∈ batchOf (s'.phase (some 0)) := by
  obtain ⟨s, s', hreached, hreturns, hbatch⟩ := wait_early (@length_replicate _ 4294967294 true)
    (@length_replicate _ 2147483647 true) (@length_replicate _ 6 true) (by
      intro check hcheck
      rcases mem_append.1 hcheck with hcheck | hcheck
      · rcases mem_append.1 hcheck with hcheck | hcheck
        · exact eq_of_mem_replicate hcheck
        · exact eq_of_mem_replicate hcheck
      · exact eq_of_mem_replicate hcheck)
  refine ⟨s, s', _, hreached, hreturns, ?_, hbatch⟩
  refine mem_append_left _ (mem_append_left _ (mem_append_right _ ?_))
  exact mem_singleton.2 rfl

end

end CheckThreads

end Coinyecoin
