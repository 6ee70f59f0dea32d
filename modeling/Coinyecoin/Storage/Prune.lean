import Coinyecoin.Storage.BlockFiles

/-!
# Pruning

`FindFilesToPrune` and `FindFilesToPruneManual` delete block files whose blocks
are old enough. How old is a difference of unsigned integers: below a chain
height of `MIN_BLOCKS_TO_KEEP` it wraps around, and every file is old enough.
The main network does not prune before height 100000; the other two do from
1001 on.
-/

namespace Coinyecoin

open Foundation Consensus List

def MIN_BLOCKS_TO_KEEP : UInt32 := 1440

def pruneAfterHeight : Network → UInt64
  | .main => 100000
  | .test => 1000
  | .regtest => 1000

namespace BlockStore

def fileInfo (store : BlockStore) (fileNumber : ℕ) : Except Fault CBlockFileInfo :=
  match store.vinfoBlockFile[fileNumber]? with
  | none => .error .indexOutOfRange
  | some info => .ok info

/-- The bytes of a file on disk, a 32-bit sum. -/
def usage (info : CBlockFileInfo) : UInt64 := (info.nSize + info.nUndoSize).toUInt64

def calculateCurrentUsage (store : BlockStore) : UInt64 :=
  store.vinfoBlockFile.foldl (fun retval file => retval + usage file) 0

def pruneManualLoop (nLastBlockWeCanPrune : UInt32) :
    List ℕ → BlockStore × List ℕ → Except Fault (BlockStore × List ℕ)
  | [], found => .ok found
  | fileNumber :: rest, (store, setFilesToPrune) => do
    let info ← store.fileInfo fileNumber
    if info.nSize = 0 ∨ info.nHeightLast > nLastBlockWeCanPrune then
      pruneManualLoop nLastBlockWeCanPrune rest (store, setFilesToPrune)
    else
      pruneManualLoop nLastBlockWeCanPrune rest
        (store.pruneOneBlockFile fileNumber, fileNumber :: setFilesToPrune)

/-- `FindFilesToPruneManual` with the height of the tip, if there is one: the store afterwards and
the files removed. -/
def findFilesToPruneManual (store : BlockStore) (chainHeight : Option Height)
    (nManualPruneHeight : Height) : Except Fault (BlockStore × List ℕ) := do
  assertThat (0 < nManualPruneHeight.val) "fPruneMode && nManualPruneHeight > 0"
  match chainHeight with
  | none => .ok (store, [])
  | some height =>
    pruneManualLoop (min nManualPruneHeight.toUnsigned (height.toUnsigned - MIN_BLOCKS_TO_KEEP))
      (List.range store.nLastBlockFile) (store, [])

def nBuffer : UInt64 := (BLOCKFILE_CHUNK_SIZE + UNDOFILE_CHUNK_SIZE).toUInt64

/-- The loop of `FindFilesToPrune`, which also ends as soon as the usage is below the target. -/
def pruneLoop (nPruneTarget : UInt64) (nLastBlockWeCanPrune : UInt32) :
    List ℕ → UInt64 → BlockStore × List ℕ → Except Fault (BlockStore × List ℕ)
  | [], _, found => .ok found
  | fileNumber :: rest, nCurrentUsage, (store, setFilesToPrune) => do
    let info ← store.fileInfo fileNumber
    if info.nSize = 0 then
      pruneLoop nPruneTarget nLastBlockWeCanPrune rest nCurrentUsage (store, setFilesToPrune)
    else if nCurrentUsage + nBuffer < nPruneTarget then
      .ok (store, setFilesToPrune)
    else if info.nHeightLast > nLastBlockWeCanPrune then
      pruneLoop nPruneTarget nLastBlockWeCanPrune rest nCurrentUsage (store, setFilesToPrune)
    else
      pruneLoop nPruneTarget nLastBlockWeCanPrune rest (nCurrentUsage - usage info)
        (store.pruneOneBlockFile fileNumber, fileNumber :: setFilesToPrune)

def findFilesToPrune (store : BlockStore) (chainHeight : Option Height) (nPruneTarget : UInt64)
    (nPruneAfterHeight : UInt64) : Except Fault (BlockStore × List ℕ) :=
  match chainHeight with
  | none => .ok (store, [])
  | some height =>
    if nPruneTarget = 0 then .ok (store, [])
    else if UInt64.ofNat height ≤ nPruneAfterHeight then .ok (store, [])
    else if store.calculateCurrentUsage + nBuffer ≥ nPruneTarget then
      pruneLoop nPruneTarget (height.toUnsigned - MIN_BLOCKS_TO_KEEP)
        (List.range store.nLastBlockFile) store.calculateCurrentUsage (store, [])
    else .ok (store, [])

section

def Prunable (store : BlockStore) (nLastBlockWeCanPrune : UInt32) (fileNumber : ℕ) : Prop :=
  ∃ info, store.vinfoBlockFile[fileNumber]? = some info ∧ info.nSize ≠ 0 ∧
    ¬ info.nHeightLast > nLastBlockWeCanPrune

variable {store : BlockStore} {last : UInt32} {fileNumber : ℕ}

theorem prunable_pruneOneBlockFile {fileNumber n : ℕ} (h : n ≠ fileNumber) :
    (store.pruneOneBlockFile fileNumber).Prunable last n ↔ store.Prunable last n := by
  rw [Prunable, Prunable, pruneOneBlockFile, getElem?_set_ne h.symm]

theorem fileInfo_prunable {n : ℕ} (hn : n < store.vinfoBlockFile.length) {last : UInt32} :
    ∃ info, store.fileInfo n = .ok info ∧
      (store.Prunable last n ↔ info.nSize ≠ 0 ∧ ¬ info.nHeightLast > last) := by
  have hinfo := getElem?_eq_getElem hn
  exact ⟨store.vinfoBlockFile[n], by rw [fileInfo, hinfo], by simp [Prunable, hinfo]⟩

theorem pruneManualLoop_returns {files : List ℕ} (hnodup : files.Nodup)
    (hlt : ∀ n ∈ files, n < store.vinfoBlockFile.length) (removed : List ℕ) :
    ∃ after found, pruneManualLoop last files (store, removed) = .ok (after, found) ∧
      ∀ n, n ∈ found ↔ n ∈ removed ∨ n ∈ files ∧ store.Prunable last n := by
  induction files generalizing store removed with
  | nil => exact ⟨store, removed, rfl, by simp⟩
  | cons fileNumber rest ih =>
    obtain ⟨hfresh, hrest⟩ := nodup_cons.1 hnodup
    obtain ⟨hfile, htail⟩ := forall_mem_cons.1 hlt
    obtain ⟨info, hread, hprunable⟩ := fileInfo_prunable hfile
    rw [pruneManualLoop, hread, ok_bind]
    by_cases hskip : info.nSize = 0 ∨ info.nHeightLast > last
    · have hkeep : ¬ store.Prunable last fileNumber := by
        rw [hprunable, ← not_or]
        exact not_not_intro hskip
      obtain ⟨after, found, hrun, hfound⟩ := ih hrest htail removed
      rw [if_pos hskip]
      refine ⟨after, found, hrun, fun n => (hfound n).trans (or_congr_right ?_)⟩
      rw [mem_cons, or_and_right]
      exact (or_iff_right fun h : n = fileNumber ∧ _ => hkeep (h.1 ▸ h.2)).symm
    · obtain ⟨after, found, hrun, hfound⟩ := @ih (store.pruneOneBlockFile fileNumber) hrest
        (by simpa [pruneOneBlockFile] using htail) (fileNumber :: removed)
      rw [if_neg hskip]
      refine ⟨after, found, hrun, fun n => (hfound n).trans ?_⟩
      by_cases hn : n = fileNumber
      · simp [hn, hfresh, hprunable.2 (not_or.1 hskip)]
      · simp [hn, prunable_pruneOneBlockFile hn]

/-- Beside the files in `removed`, only prunable ones are found, and `above` the target at least
one of them. -/
structure Finds (store : BlockStore) (last : UInt32) (files removed : List ℕ) (above : Prop)
    (found : List ℕ) : Prop where
  subset : removed ⊆ found
  prunable : ∀ n ∈ found, n ∈ removed ∨ n ∈ files ∧ store.Prunable last n
  exists_found : above → (∃ n ∈ files, store.Prunable last n) →
    ∃ n ∈ found, n ∈ files ∧ store.Prunable last n

theorem Finds.skip {files removed found : List ℕ} {above : Prop}
    (h : Finds store last files removed above found) (hkeep : ¬ store.Prunable last fileNumber) :
    Finds store last (fileNumber :: files) removed above found where
  subset := h.subset
  prunable n hn := (h.prunable n hn).imp_right fun hfile =>
    ⟨List.mem_cons_of_mem _ hfile.1, hfile.2⟩
  exists_found habove hex := by
    obtain ⟨n, hn, hprunable⟩ := hex
    rcases mem_cons.1 hn with rfl | hn
    · exact absurd hprunable hkeep
    · obtain ⟨m, hm, hfile, hold⟩ := h.exists_found habove ⟨n, hn, hprunable⟩
      exact ⟨m, hm, mem_cons_of_mem _ hfile, hold⟩

theorem pruneLoop_returns (nPruneTarget : UInt64) (last : UInt32) {files : List ℕ}
    (hnodup : files.Nodup)
    (hlt : ∀ n ∈ files, n < store.vinfoBlockFile.length) (nCurrentUsage : UInt64)
    (removed : List ℕ) :
    ∃ after found, pruneLoop nPruneTarget last files nCurrentUsage (store, removed) =
        .ok (after, found) ∧
      Finds store last files removed (¬ nCurrentUsage + nBuffer < nPruneTarget) found := by
  induction files generalizing store removed nCurrentUsage with
  | nil => exact ⟨store, removed, rfl, List.Subset.refl _, by simp, by simp⟩
  | cons fileNumber rest ih =>
    obtain ⟨hfresh, hrest⟩ := nodup_cons.1 hnodup
    obtain ⟨hfile, htail⟩ := forall_mem_cons.1 hlt
    obtain ⟨info, hread, hprunable⟩ := fileInfo_prunable hfile
    rw [pruneLoop, hread, ok_bind]
    by_cases hempty : info.nSize = 0
    · obtain ⟨after, found, hrun, hfinds⟩ := ih hrest htail nCurrentUsage removed
      rw [if_pos hempty]
      exact ⟨after, found, hrun, hfinds.skip fun h => (hprunable.1 h).1 hempty⟩
    rw [if_neg hempty]
    by_cases hbelow : nCurrentUsage + nBuffer < nPruneTarget
    · rw [if_pos hbelow]
      exact ⟨store, removed, rfl, List.Subset.refl _, fun n hn => .inl hn,
        fun habove => absurd hbelow habove⟩
    rw [if_neg hbelow]
    by_cases hyoung : info.nHeightLast > last
    · obtain ⟨after, found, hrun, hfinds⟩ := ih hrest htail nCurrentUsage removed
      rw [if_pos hyoung]
      exact ⟨after, found, hrun, hfinds.skip fun h => (hprunable.1 h).2 hyoung⟩
    · obtain ⟨after, found, hrun, hfinds⟩ := @ih (store.pruneOneBlockFile fileNumber) hrest
        (by simpa [pruneOneBlockFile] using htail) (nCurrentUsage - usage info)
        (fileNumber :: removed)
      have hold := hprunable.2 ⟨hempty, hyoung⟩
      have hfound := hfinds.subset mem_cons_self
      rw [if_neg hyoung]
      refine ⟨after, found, hrun, fun n hn => hfinds.subset (mem_cons_of_mem _ hn),
        fun n hn => ?_, fun _ _ => ⟨fileNumber, hfound, mem_cons_self, hold⟩⟩
      by_cases hfile : n = fileNumber
      · exact .inr ⟨hfile ▸ mem_cons_self, hfile ▸ hold⟩
      · rcases hfinds.prunable n hn with hmem | ⟨hmem, hother⟩
        · exact .inl ((mem_cons.1 hmem).resolve_left hfile)
        · exact .inr ⟨mem_cons_of_mem _ hmem, (prunable_pruneOneBlockFile hfile).1 hother⟩

end

section

variable {store : BlockStore} {height : Height} {files : List ℕ} {last : UInt32}

theorem toNat_sub_minBlocksToKeep (height : Height) :
    (height.toUnsigned - MIN_BLOCKS_TO_KEEP).toNat =
      if 1440 ≤ height.val then height.val - 1440 else 2 ^ 32 + height.val - 1440 := by
  have hlt := height.isLt
  have hmin : MIN_BLOCKS_TO_KEEP.toNat = 1440 := rfl
  rw [UInt32.toNat_sub, Height.toNat_toUnsigned, hmin]
  split_ifs with h
  · omega
  · omega

def KeepsRecent (store : BlockStore) (height : Height) (files : List ℕ) : Prop :=
  ∀ block ∈ store.blocks, block.nFile ∈ files →
    (block.nHeight.val : ℤ) ≤ height.val - MIN_BLOCKS_TO_KEEP.toNat

theorem keepsRecent_of_le (hheight : 1440 ≤ height.val)
    (hlast : last.toNat ≤ (height.toUnsigned - MIN_BLOCKS_TO_KEEP).toNat)
    (hfiles : ∀ n ∈ files, store.Prunable last n) : store.KeepsRecent height files := by
  intro block hblock hfile
  obtain ⟨info, hinfo, -, hold⟩ := hfiles _ hfile
  have hle := store.height_le block hblock info hinfo
  have hinfoLast : ¬ last.toNat < info.nHeightLast.toNat := fun hlt =>
    hold (UInt32.lt_iff_toNat_lt.2 hlt)
  have hmin : MIN_BLOCKS_TO_KEEP.toNat = 1440 := rfl
  rw [toNat_sub_minBlocksToKeep, if_pos hheight] at hlast
  omega

theorem keepsRecent_iff_of_lt (hheight : height.val < 1440)
    (hfiles : ∀ n ∈ files, store.Prunable last n) :
    store.KeepsRecent height files ↔ files = [] := by
  constructor
  · intro hkeeps
    refine eq_nil_iff_forall_not_mem.2 fun n hn => ?_
    obtain ⟨info, hinfo, hsize, -⟩ := hfiles n hn
    obtain ⟨block, hblock, rfl⟩ := store.exists_block n info hinfo hsize
    have hle := hkeeps block hblock hn
    have hmin : MIN_BLOCKS_TO_KEEP.toNat = 1440 := rfl
    omega
  · rintro rfl block - hfile
    exact nomatch hfile

end

section

/-- What pruning is asked for: to stay below a target, on a network, or up to a height. -/
inductive PruneRequest where
  | target (network : Network) (nPruneTarget : UInt64)
  | manual (nManualPruneHeight : Height) (hpos : 0 < nManualPruneHeight.val)

def findFiles (store : BlockStore) (chainHeight : Option Height) :
    PruneRequest → Except Fault (BlockStore × List ℕ)
  | .target network nPruneTarget =>
    store.findFilesToPrune chainHeight nPruneTarget (pruneAfterHeight network)
  | .manual nManualPruneHeight _ => store.findFilesToPruneManual chainHeight nManualPruneHeight

/-- There is nothing to remove, whatever the last height is that can be pruned. -/
def Idle (store : BlockStore) (height : Height) : PruneRequest → Prop
  | .target network nPruneTarget => nPruneTarget = 0 ∨
      UInt64.ofNat height ≤ pruneAfterHeight network ∨
      ¬ store.calculateCurrentUsage + nBuffer ≥ nPruneTarget ∨
      ∀ n < store.nLastBlockFile, ∀ info, store.vinfoBlockFile[n]? = some info → info.nSize = 0
  | .manual nManualPruneHeight _ =>
    ∀ n < store.nLastBlockFile, ∀ info, store.vinfoBlockFile[n]? = some info →
      info.nSize = 0 ∨ info.nHeightLast > nManualPruneHeight.toUnsigned

variable (store : BlockStore) (height : Height)

theorem toNat_min_le (a b : UInt32) : (min a b).toNat ≤ b.toNat := by
  change (if a ≤ b then a else b).toNat ≤ b.toNat
  split_ifs with h
  · exact UInt32.le_iff_toNat_le.1 h
  · exact le_rfl

theorem manual_returns (nManualPruneHeight : Height) (hpos : 0 < nManualPruneHeight.val) :
    ∃ last after removed, last.toNat ≤ (height.toUnsigned - MIN_BLOCKS_TO_KEEP).toNat ∧
      store.findFiles (some height) (.manual nManualPruneHeight hpos) = .ok (after, removed) ∧
      (∀ n ∈ removed, store.Prunable last n) ∧
      (height.val < 1440 →
        (removed = [] ↔ store.Idle height (.manual nManualPruneHeight hpos))) := by
  obtain ⟨after, removed, hrun, hremoved⟩ := pruneManualLoop_returns
    nodup_range
    (fun n hn => lt_of_lt_of_le (mem_range.1 hn) store.lastFile_le) []
  refine ⟨min nManualPruneHeight.toUnsigned (height.toUnsigned - MIN_BLOCKS_TO_KEEP), after,
    removed, toNat_min_le _ _, ?_, fun n hn => ?_, fun hlow => ?_⟩
  · rw [findFiles, findFilesToPruneManual, assertThat_of_true hpos]
    exact hrun
  · exact (((hremoved n).1 hn).resolve_left not_mem_nil).2
  · -- the difference has wrapped around and is beyond any height
    have hlast : min nManualPruneHeight.toUnsigned (height.toUnsigned - MIN_BLOCKS_TO_KEEP) =
        nManualPruneHeight.toUnsigned := by
      refine if_pos (UInt32.le_iff_toNat_le.2 ?_)
      have hlt := nManualPruneHeight.isLt
      rw [toNat_sub_minBlocksToKeep, if_neg (by omega), Height.toNat_toUnsigned]
      omega
    rw [eq_nil_iff_forall_not_mem]
    simp only [hremoved, not_mem_nil, false_or, mem_range, hlast, Idle, Prunable]
    constructor
    · intro hnone n hn info hinfo
      by_contra hneither
      exact hnone n ⟨hn, info, hinfo, not_or.1 hneither⟩
    · rintro hidle n ⟨hn, info, hinfo, hsize, hold⟩
      exact (hidle n hn info hinfo).elim hsize hold

theorem target_returns (network : Network) (nPruneTarget : UInt64) :
    ∃ last after removed, last.toNat ≤ (height.toUnsigned - MIN_BLOCKS_TO_KEEP).toNat ∧
      store.findFiles (some height) (.target network nPruneTarget) = .ok (after, removed) ∧
      (∀ n ∈ removed, store.Prunable last n) ∧
      (height.val < 1440 → (removed = [] ↔ store.Idle height (.target network nPruneTarget))) := by
  refine ⟨height.toUnsigned - MIN_BLOCKS_TO_KEEP, ?_⟩
  by_cases hstop : nPruneTarget = 0 ∨ UInt64.ofNat height ≤ pruneAfterHeight network ∨
      ¬ store.calculateCurrentUsage + nBuffer ≥ nPruneTarget
  · refine ⟨store, [], le_rfl, ?_, nofun, fun _ => iff_of_true rfl ?_⟩
    · rw [findFiles, findFilesToPrune]
      rcases hstop with h | h | h
      · simp [h]
      · simp [h]
      · simp [h]
    · rcases hstop with h | h | h
      · exact .inl h
      · exact .inr (.inl h)
      · exact .inr (.inr (.inl h))
  · obtain ⟨htarget, hafter, husage⟩ : nPruneTarget ≠ 0 ∧
        ¬ UInt64.ofNat height ≤ pruneAfterHeight network ∧
        ¬ ¬ store.calculateCurrentUsage + nBuffer ≥ nPruneTarget := by
      rwa [not_or, not_or] at hstop
    rw [not_not] at husage
    obtain ⟨after, removed, hrun, hfinds⟩ := pruneLoop_returns nPruneTarget
      (height.toUnsigned - MIN_BLOCKS_TO_KEEP) nodup_range
      (fun n hn => lt_of_lt_of_le (mem_range.1 hn) store.lastFile_le)
      store.calculateCurrentUsage []
    have hold := fun n hn => (hfinds.prunable n hn).resolve_left not_mem_nil
    refine ⟨after, removed, le_rfl, ?_, fun n hn => (hold n hn).2, fun hlow => ?_⟩
    · rw [findFiles, findFilesToPrune, if_neg htarget, if_neg hafter, if_pos husage]
      exact hrun
    · have hidle : store.Idle height (.target network nPruneTarget) ↔
          ∀ n < store.nLastBlockFile, ∀ info, store.vinfoBlockFile[n]? = some info →
            info.nSize = 0 := by
        simp [Idle, htarget, hafter, husage]
      rw [hidle]
      constructor
      · rintro rfl n hn info hinfo
        by_contra hsize
        have hprunable : store.Prunable (height.toUnsigned - MIN_BLOCKS_TO_KEEP) n := by
          refine ⟨info, hinfo, hsize, fun hyoung => ?_⟩
          have hlt := store.height_lt n info hinfo
          have hyoung := UInt32.lt_iff_toNat_lt.1 hyoung
          rw [toNat_sub_minBlocksToKeep, if_neg (by omega)] at hyoung
          omega
        obtain ⟨m, hm, -⟩ := hfinds.exists_found (UInt64.not_lt.2 husage)
          ⟨n, mem_range.2 hn, hprunable⟩
        exact nomatch hm
      · intro hempty
        refine eq_nil_iff_forall_not_mem.2 fun n hn => ?_
        obtain ⟨hmem, info, hinfo, hsize, -⟩ := hold n hn
        exact hsize (hempty n (mem_range.1 hmem) info hinfo)

theorem findFiles_returns (request : PruneRequest) :
    ∃ last after removed, last.toNat ≤ (height.toUnsigned - MIN_BLOCKS_TO_KEEP).toNat ∧
      store.findFiles (some height) request = .ok (after, removed) ∧
      (∀ n ∈ removed, store.Prunable last n) ∧
      (height.val < 1440 → (removed = [] ↔ store.Idle height request)) := by
  cases request with
  | target network nPruneTarget => exact target_returns store height network nPruneTarget
  | manual nManualPruneHeight hpos => exact manual_returns store height nManualPruneHeight hpos

/-- Pruning keeps the recent blocks exactly if the chain is at least `MIN_BLOCKS_TO_KEEP` high or
there is nothing to remove. -/
theorem findFiles_keepsRecent_iff (request : PruneRequest) :
    ∃ after removed, store.findFiles (some height) request = .ok (after, removed) ∧
      (store.KeepsRecent height removed ↔
        MIN_BLOCKS_TO_KEEP.toNat ≤ height.val ∨ store.Idle height request) := by
  obtain ⟨last, after, removed, hlast, hrun, hprunable, hidle⟩ :=
    findFiles_returns store height request
  refine ⟨after, removed, hrun, ?_⟩
  change store.KeepsRecent height removed ↔ 1440 ≤ height.val ∨ _
  by_cases hlow : height.val < 1440
  · rw [keepsRecent_iff_of_lt hlow hprunable, hidle hlow, or_iff_right (by omega)]
  · exact iff_of_true (keepsRecent_of_le (by omega) hlast hprunable) (.inl (by omega))

def sampleStore : BlockStore :=
  (empty.place 0 1000 1391503470 fun _ => 0x7ff0000).place 1 1010 1391593470 fun _ => 0x1000

/-- At a chain height of 1010 the file with block 1000 is removed, automatically on the test
network and by hand. -/
theorem findFiles_removes_recent :
    (∃ after, sampleStore.findFiles (some 1010) (.target .test 104857600) = .ok (after, [0])) ∧
      (∃ after, sampleStore.findFiles (some 1010) (.manual 1005 (by decide)) =
        .ok (after, [0])) ∧
      ¬ sampleStore.KeepsRecent 1010 [0] := by
  refine ⟨⟨_, rfl⟩, ⟨_, rfl⟩, fun hkeeps => ?_⟩
  exact absurd (hkeeps ⟨0, 1000⟩ (by decide) (by decide)) (by decide)

end

end BlockStore

end Coinyecoin
