import Coinyecoin.Stratum.Candidate

/-!
# The jobs that are kept

`CreateJob` keeps eight jobs and drops the oldest. The creation times have a
resolution of a second, and among jobs of one second the first in the order of the
map counts as the oldest. The map is ordered by the ids as strings, which is not
the order of creation: `"10"` comes before `"8"`.

So the map holds the most recent jobs for as long as, whenever a job has to go, the
one created first also comes first in the map among those of its second.
-/

namespace Coinyecoin

namespace Stratum

open Foundation List

variable {id : StdString} {fuel : ℕ} {D : Type}

section

/-- The order in which jobs are dropped: by creation time, then by id. -/
def StratumJob.Before (job other : StratumJob) : Prop :=
  job.nCreated < other.nCreated ∨ job.nCreated = other.nCreated ∧ job.id < other.id

theorem StratumJob.Before.trans {a b c : StratumJob} (hab : a.Before b) (hbc : b.Before c) :
    a.Before c := by
  rcases hab with hab | ⟨hab, hid⟩
  · rcases hbc with hbc | ⟨hbc, -⟩
    · exact .inl (hab.trans hbc)
    · exact .inl (hbc ▸ hab)
  · rcases hbc with hbc | ⟨hbc, hid'⟩
    · exact .inl (hab ▸ hbc)
    · exact .inr ⟨hab.trans hbc, List.lt_trans hid hid'⟩

theorem StratumJob.Before.irrefl (a : StratumJob) : ¬ a.Before a := by
  rintro (h | ⟨-, h⟩)
  · exact lt_irrefl _ h
  · exact List.lt_irrefl _ h

def KeyOrdered (mapJobs : List StratumJob) : Prop :=
  mapJobs.Pairwise fun job other => job.id < other.id

variable {mapJobs : List StratumJob} {job : StratumJob}

theorem KeyOrdered.nodup_ids (h : KeyOrdered mapJobs) : (mapJobs.map StratumJob.id).Nodup := by
  refine pairwise_map.2 (h.imp fun {job other} hlt heq => ?_)
  rw [heq] at hlt
  exact List.lt_irrefl _ hlt

theorem insertJob_perm (hnew : ∀ other ∈ mapJobs, other.id ≠ job.id) :
    (insertJob job mapJobs).Perm (job :: mapJobs) := by
  induction mapJobs with
  | nil => exact .refl _
  | cons first mapJobs ih =>
    obtain ⟨hfirst, hrest⟩ := forall_mem_cons.1 hnew
    rw [insertJob]
    split_ifs with hlt heq
    · exact .refl _
    · exact absurd heq.symm hfirst
    · exact ((ih hrest).cons first).trans (.swap _ _ _)

theorem KeyOrdered.insertJob (h : KeyOrdered mapJobs) : KeyOrdered (insertJob job mapJobs) := by
  induction mapJobs with
  | nil => exact pairwise_singleton _ _
  | cons first mapJobs ih =>
    obtain ⟨hfirst, hrest⟩ := pairwise_cons.1 h
    rw [Stratum.insertJob]
    split_ifs with hlt heq
    · refine pairwise_cons.2 ⟨fun other hother => ?_, h⟩
      rcases mem_cons.1 hother with rfl | hother
      · exact hlt
      · exact List.lt_trans hlt (hfirst other hother)
    · exact pairwise_cons.2 ⟨fun other hother => heq ▸ hfirst other hother, hrest⟩
    · refine pairwise_cons.2 ⟨fun other hother => ?_, ih hrest⟩
      rcases mem_insertJob hother with rfl | hother
      · exact Std.lt_of_le_of_ne (List.not_lt.1 hlt) fun h => heq h.symm
      · exact hfirst other hother

theorem oldestJob_before {first : StratumJob} (h : KeyOrdered (first :: mapJobs)) :
    oldestJob first mapJobs ∈ first :: mapJobs ∧
      ∀ job ∈ first :: mapJobs, job = oldestJob first mapJobs ∨
        (oldestJob first mapJobs).Before job := by
  induction mapJobs generalizing first with
  | nil => exact ⟨mem_cons_self, fun job hjob => .inl (mem_singleton.1 hjob)⟩
  | cons next mapJobs ih =>
    obtain ⟨hfirst, hrest⟩ := pairwise_cons.1 h
    have hfold : oldestJob first (next :: mapJobs) =
        oldestJob (if next.nCreated < first.nCreated then next else first) mapJobs := rfl
    rw [hfold]
    split_ifs with hlt
    · obtain ⟨hmem, hbefore⟩ := ih hrest
      refine ⟨mem_cons_of_mem _ hmem, fun job hjob => ?_⟩
      rcases mem_cons.1 hjob with rfl | hjob
      · have hnext : next.Before job := .inl hlt
        rcases hbefore next mem_cons_self with heq | holdest
        · exact .inr (heq ▸ hnext)
        · exact .inr (holdest.trans hnext)
      · exact hbefore job hjob
    · have hskip : KeyOrdered (first :: mapJobs) :=
        pairwise_cons.2 ⟨fun job hjob => hfirst job (mem_cons_of_mem _ hjob),
          (pairwise_cons.1 hrest).2⟩
      obtain ⟨hmem, hbefore⟩ := ih hskip
      refine ⟨?_, fun job hjob => ?_⟩
      · rcases mem_cons.1 hmem with heq | hmem
        · rw [heq]
          exact mem_cons_self
        · exact mem_cons_of_mem _ (mem_cons_of_mem _ hmem)
      · rcases mem_cons.1 hjob with rfl | hjob
        · exact hbefore job mem_cons_self
        · rcases mem_cons.1 hjob with rfl | hjob
          · have hsecond : first.Before job := by
              rcases lt_or_eq_of_le (not_lt.1 hlt) with hle | heq
              · exact .inl hle
              · exact .inr ⟨heq, hfirst job mem_cons_self⟩
            rcases hbefore first mem_cons_self with heq | holdest
            · exact .inr (heq ▸ hsecond)
            · exact .inr (holdest.trans hsecond)
          · exact hbefore job (mem_cons_of_mem _ hjob)

end

section

theorem pruneJobs_of_short {mapJobs : List StratumJob}
    (hlen : mapJobs.length ≤ 8) : pruneJobs id fuel mapJobs = mapJobs := by
  cases fuel with
  | zero => rfl
  | succ fuel =>
    cases mapJobs with
    | nil => rfl
    | cons first mapJobs => rw [pruneJobs, if_neg (Nat.not_lt.2 hlen)]

theorem pruneJobs_of_nine {first : StratumJob}
    {mapJobs : List StratumJob} (hordered : KeyOrdered (first :: mapJobs))
    (hlen : (first :: mapJobs).length = 9) :
    pruneJobs id (fuel + 1) (first :: mapJobs) =
      if (oldestJob first mapJobs).id = id then first :: mapJobs
      else (first :: mapJobs).eraseP fun job => job.id == (oldestJob first mapJobs).id := by
  have hshort : ((first :: mapJobs).eraseP
      fun job => job.id == (oldestJob first mapJobs).id).length ≤ 8 := by
    rw [length_eraseP_of_mem (oldestJob_before hordered).1 (by simp), hlen]
  rw [pruneJobs, if_pos (by omega)]
  dsimp only
  rw [pruneJobs_of_short hshort]

variable {job first : StratumJob} {mapJobs others : List StratumJob}

theorem nodup_inserted (hordered : KeyOrdered mapJobs)
    (hinserted : (insertJob job mapJobs).Perm (first :: (others ++ [job]))) :
    ((first :: (others ++ [job])).map StratumJob.id).Nodup :=
  (hinserted.map StratumJob.id).nodup_iff.1 hordered.insertJob.nodup_ids

theorem registerJob_perm_iff (hordered : KeyOrdered mapJobs)
    (hperm : mapJobs.Perm (first :: others)) (hlen : others.length = 7)
    (hnew : ∀ other ∈ mapJobs, other.id ≠ job.id) :
    (registerJob job mapJobs).Perm (others ++ [job]) ↔
      ∀ other ∈ others ++ [job], first.Before other := by
  have hinserted : (insertJob job mapJobs).Perm (first :: (others ++ [job])) :=
    (insertJob_perm hnew).trans
      ((hperm.cons job).trans (perm_append_singleton job (first :: others)).symm)
  have hids := nodup_inserted hordered hinserted
  have hother : ∀ other ∈ others ++ [job], other.id ≠ first.id := fun other hmem heq =>
    (nodup_cons.1 hids).1 (heq ▸ mem_map_of_mem hmem)
  have hlength : (insertJob job mapJobs).length = 9 := by
    rw [hinserted.length_eq]
    simp [hlen]
  have hkeys : KeyOrdered (insertJob job mapJobs) := hordered.insertJob
  rw [registerJob, hlength]
  cases hcons : insertJob job mapJobs with
  | nil => exact absurd (hcons ▸ hlength) (by decide)
  | cons head tail =>
    rw [hcons] at hinserted hkeys hlength
    obtain ⟨hmem, hbefore⟩ := oldestJob_before hkeys
    rw [pruneJobs_of_nine hkeys hlength]
    constructor
    · intro h
      split_ifs at h with hid
      · have hcount := h.length_eq
        rw [hlength] at hcount
        simp [hlen] at hcount
      · -- the first job is gone, so it was the oldest
        have hfirst : first.id = (oldestJob head tail).id := by
          by_contra hne
          have hin : first ∈ (head :: tail).eraseP
              fun other => other.id == (oldestJob head tail).id := by
            rw [mem_eraseP_of_neg (by simpa using hne)]
            exact hinserted.mem_iff.2 mem_cons_self
          exact hother first (h.mem_iff.1 hin) rfl
        intro other hmem'
        rcases hbefore other (hinserted.mem_iff.2 (mem_cons_of_mem _ hmem')) with heq | hb
        · exact absurd (heq ▸ hfirst.symm) (hother other hmem')
        · have heq : first = oldestJob head tail :=
            inj_on_of_nodup_map hkeys.nodup_ids
              (hinserted.mem_iff.2 mem_cons_self) hmem hfirst
          exact heq ▸ hb
    · intro hfirst
      have heq : oldestJob head tail = first := by
        rcases mem_cons.1 (hinserted.mem_iff.1 hmem) with heq | hin
        · exact heq
        · rcases hbefore first (hinserted.mem_iff.2 mem_cons_self) with heq | hb
          · exact heq.symm
          · exact absurd ((hfirst _ hin).trans hb) (StratumJob.Before.irrefl _)
      have hjob : job.id ≠ first.id := hother job (mem_append_right _ mem_cons_self)
      rw [heq, if_neg hjob.symm]
      have herase : (first :: (others ++ [job])).eraseP (fun other => other.id == first.id) =
          others ++ [job] := by
        rw [eraseP_cons_of_pos (by simp)]
      rw [← herase]
      refine hinserted.eraseP _ ?_
      refine (pairwise_map.1 hkeys.nodup_ids).imp fun {a b} hne ha hb => hne ?_
      rw [beq_iff_eq] at ha hb
      exact ha.trans hb.symm

end

section

variable {env : StratumEnv D} {s s' : Server D} {e : Event}

/-- The eight jobs created last, or all of them if there are fewer. -/
def recentJobs (s : Server D) : List StratumJob := s.created.drop (s.created.length - 8)

def HoldsRecent (s : Server D) : Prop := s.mapJobs.Perm (recentJobs s)

def Server.named (s : Server D) (job : StratumJob) : StratumJob :=
  { job with id := formatX (s.nJobCounter + 1) }

/-- When a ninth job is registered, the first of the eight was created in an earlier
second than the others, or in the same second and its id sorts before theirs. -/
def DropsFirst (s : Server D) : Event → Prop
  | .registerJob => ∀ job first others, s.jobThread = .measured job →
      recentJobs s = first :: others → others.length = 7 →
        ∀ other ∈ others ++ [s.named job], first.Before other
  | _ => True

/-- The map is in the order of its keys, and the ids are the serial numbers of the
jobs, as far as the counter does not wrap. -/
structure Numbered (s : Server D) : Prop where
  ordered : KeyOrdered s.mapJobs
  counter : s.nJobCounter = UInt32.ofNat s.created.length
  ids : ∀ i job, s.created[i]? = some job → job.id = formatX (UInt32.ofNat (i + 1))

theorem KeyOrdered.pruneJobs {mapJobs : List StratumJob}
    (h : KeyOrdered mapJobs) : KeyOrdered (pruneJobs id fuel mapJobs) := by
  induction fuel generalizing mapJobs with
  | zero => exact h
  | succ fuel ih =>
    cases mapJobs with
    | nil => exact h
    | cons first mapJobs =>
      simp only [Stratum.pruneJobs]
      split_ifs
      · exact h
      · exact ih (h.sublist eraseP_sublist)
      · exact h

theorem Numbered.counter_succ (hs : Numbered s) :
    s.nJobCounter + 1 = UInt32.ofNat (s.created.length + 1) := by
  rw [hs.counter]
  exact (UInt32.ofNat_add _ _).symm

theorem Numbered.init (tip : uint256) : Numbered (Server.init tip : Server D) :=
  ⟨List.Pairwise.nil, rfl, fun _ _ h => nomatch h⟩

section

variable (hs : Numbered s)
include hs

theorem Numbered.effect (h : Effect env s e s') : Numbered s' := by
  cases h with
  | registerJob job hthread =>
    refine ⟨hs.ordered.insertJob.pruneJobs, ?_, fun i job' hjob' => ?_⟩
    · change s.nJobCounter + 1 = UInt32.ofNat (s.created ++ [s.named job]).length
      rw [hs.counter_succ, length_append, length_singleton]
    · change (s.created ++ [s.named job])[i]? = some job' at hjob'
      rw [getElem?_append] at hjob'
      split_ifs at hjob' with hi
      · exact hs.ids i job' hjob'
      · rw [getElem?_singleton] at hjob'
        split_ifs at hjob' with hzero
        cases hjob'
        have hlast : i = s.created.length := by omega
        rw [hlast, ← hs.counter_succ]
        rfl
  | _ => exact ⟨hs.ordered, hs.counter, hs.ids⟩

theorem Numbered.fresh (job : StratumJob) :
    ∀ other ∈ recentJobs s, other.id ≠ (s.named job).id := by
  intro other hother heq
  obtain ⟨k, hk⟩ := List.mem_iff_getElem?.1 hother
  rw [recentJobs, List.getElem?_drop] at hk
  have hlt := (List.getElem?_eq_some_iff.1 hk).1
  have hid := (hs.ids _ _ hk).symm.trans heq
  have hnum := congrArg UInt32.toNat (formatX_injective hid)
  rw [hs.counter_succ, UInt32.toNat_ofNat', UInt32.toNat_ofNat'] at hnum
  omega

theorem holdsRecent_register_of_few (hrecent : HoldsRecent s)
    (hfew : s.created.length < 8) (job : StratumJob) : HoldsRecent (s.register job) := by
  have hall : recentJobs s = s.created := by
    rw [recentJobs, Nat.sub_eq_zero_of_le (by omega), drop_zero]
  have hnew : ∀ other ∈ s.mapJobs, other.id ≠ (s.named job).id := fun other hother =>
    hs.fresh job other (hrecent.mem_iff.1 hother)
  have hinserted := insertJob_perm hnew
  have hlen : (insertJob (s.named job) s.mapJobs).length ≤ 8 := by
    rw [hinserted.length_eq, length_cons, hrecent.length_eq, hall]
    omega
  have hrecent' : recentJobs (s.register job) = s.created ++ [s.named job] := by
    change (s.created ++ [s.named job]).drop ((s.created ++ [s.named job]).length - 8) = _
    rw [length_append, Nat.sub_eq_zero_of_le (by simpa using hfew), drop_zero]
  change (registerJob (s.named job) s.mapJobs).Perm _
  rw [hrecent', registerJob, pruneJobs_of_short hlen]
  refine hinserted.trans ((hrecent.cons _).trans ?_)
  rw [hall]
  exact (perm_append_singleton _ _).symm

theorem holdsRecent_register_iff (hrecent : HoldsRecent s) {job : StratumJob}
    (hthread : s.jobThread = .measured job) :
    HoldsRecent (s.register job) ↔ DropsFirst s .registerJob := by
  by_cases hfew : s.created.length < 8
  · refine iff_of_true (holdsRecent_register_of_few hs hrecent hfew job) ?_
    intro _ first others _ hfirst hlen
    have hcount := congrArg List.length hfirst
    rw [recentJobs, length_drop, length_cons, hlen] at hcount
    omega
  · have hlen : (recentJobs s).length = 8 := by
      rw [recentJobs, length_drop]
      omega
    obtain ⟨first, others, hfirst⟩ :=
      exists_cons_of_length_pos (l := recentJobs s) (by omega)
    rw [hfirst, length_cons, Nat.add_right_cancel_iff] at hlen
    have hrecent' : recentJobs (s.register job) = others ++ [s.named job] := by
      change (s.created ++ [s.named job]).drop ((s.created ++ [s.named job]).length - 8) = _
      have hdrop : s.created.drop (s.created.length - 8 + 1) = others := by
        rw [← drop_drop]
        change (recentJobs s).drop 1 = others
        rw [hfirst, drop_one, tail_cons]
      rw [length_append, length_singleton, drop_append_of_le_length (by omega), ← hdrop]
      congr 2
      omega
    have hnew : ∀ other ∈ s.mapJobs, other.id ≠ (s.named job).id := fun other hother =>
      hs.fresh job other (hrecent.mem_iff.1 hother)
    have hperm : s.mapJobs.Perm (first :: others) := by
      rw [← hfirst]
      exact hrecent
    change (registerJob (s.named job) s.mapJobs).Perm _ ↔ _
    rw [hrecent', registerJob_perm_iff hs.ordered hperm hlen hnew]
    constructor
    · intro h job' first' others' hthread' hfirst' _
      cases hthread.symm.trans hthread'
      cases hfirst.symm.trans hfirst'
      exact h
    · exact fun h => h job first others hthread hfirst hlen

end

theorem Effect.keeps_jobs (h : Effect env s e s') (he : e ≠ .registerJob) :
    s'.mapJobs = s.mapJobs ∧ s'.created = s.created := by
  cases h with
  | registerJob => exact absurd rfl he
  | _ => exact ⟨rfl, rfl⟩

theorem holdsRecent_step_iff (hs : Numbered s) (hrecent : HoldsRecent s) (e : Event) :
    HoldsRecent (step env s e) ↔ DropsFirst s e := by
  by_cases he : e = .registerJob
  · subst he
    simp only [step]
    split
    · rename_i job hthread
      exact holdsRecent_register_iff hs hrecent hthread
    · rename_i hother
      exact iff_of_true hrecent fun job _ _ hthread => absurd hthread (hother job)
  · have heffect : Effect env s e (step env s e) := step_effect e
    obtain ⟨hmap, hcreated⟩ := heffect.keeps_jobs he
    rw [HoldsRecent, recentJobs, hmap, hcreated]
    refine iff_of_true hrecent ?_
    cases e with
    | registerJob => exact absurd rfl he
    | _ => trivial

/-- In a run the map holds the most recent jobs at all times, if and only if whenever a
ninth job is registered the first of the eight comes first by creation time and
id. -/
theorem recent_jobs_kept_iff (env : StratumEnv D) (tip : uint256) (events : List Event) :
    (∀ done, done <+: events → HoldsRecent (run env tip done)) ↔
      AllMeet (step env) DropsFirst (Server.init tip) events := by
  have hnumbered (done : List Event) : Numbered (run env tip done) :=
    runEvents_invariant (fun s e hs => hs.effect (step_effect e)) done (Numbered.init tip)
  have hstep (s : Server D) (e : Event) (hs : Numbered s ∧ HoldsRecent s) :
      Numbered (step env s e) ∧ HoldsRecent (step env s e) ↔ DropsFirst s e := by
    rw [and_iff_right (hs.1.effect (step_effect e)), holdsRecent_step_iff hs.1 hs.2]
  rw [← forall_prefix_iff_allMeet hstep ⟨Numbered.init tip, List.Perm.nil⟩]
  exact forall_congr' fun done => forall_congr' fun _ =>
    (and_iff_right (hnumbered done)).symm

def sampleJobs : ℕ → List Event
  | 0 => []
  | n + 1 => sampleCreateJob ++ ([.startBroadcast false, .buildNotify] ++ sampleJobs n)

/-- With the sixteenth job of a second, whose id `"10"` sorts before those of the
others, the map has nine jobs. -/
theorem sixteen_jobs_in_a_second :
    (run sampleEnv 7 (sampleJobs 16)).mapJobs.map StratumJob.id =
        ["10", "8", "9", "a", "b", "c", "d", "e", "f"].map str ∧
      ¬ HoldsRecent (run sampleEnv 7 (sampleJobs 16)) := by
  have hids : (run sampleEnv 7 (sampleJobs 16)).mapJobs.map StratumJob.id =
      ["10", "8", "9", "a", "b", "c", "d", "e", "f"].map str := by
    decide +kernel
  refine ⟨hids, fun h => ?_⟩
  have hlen : (recentJobs (run sampleEnv 7 (sampleJobs 16))).length = 9 := by
    rw [← h.length_eq, ← length_map (f := StratumJob.id), hids]
    rfl
  rw [recentJobs, length_drop] at hlen
  omega

end

end Stratum

end Coinyecoin
