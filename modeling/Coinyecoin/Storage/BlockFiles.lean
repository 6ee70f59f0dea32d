import Coinyecoin.Consensus.Networks
import Mathlib.Algebra.Order.Ring.Nat

/-!
# Block files

`vinfoBlockFile` and the blocks that lie in the files. `FindBlockPos` places a
block and `PruneOneBlockFile` forgets all blocks of a file. A `BlockStore` is
what these lead to: the last height that the record of a file has is not below
that of any block in it, and a file without blocks is recorded as empty.
-/

namespace Coinyecoin

open Foundation

/-- A height: an `int` that is not negative. -/
abbrev Height := Fin (2 ^ 31)

def Height.toUnsigned (nHeight : Height) : UInt32 := UInt32.ofNat nHeight

@[simp] theorem Height.toNat_toUnsigned (nHeight : Height) :
    nHeight.toUnsigned.toNat = nHeight := by
  have hlt := nHeight.isLt
  exact UInt32.toNat_ofNat_of_lt' (by rw [UInt32.size]; omega)

structure CBlockFileInfo where
  nBlocks : UInt32
  nSize : UInt32
  nUndoSize : UInt32
  nHeightFirst : UInt32
  nHeightLast : UInt32
  nTimeFirst : UInt64
  nTimeLast : UInt64
deriving DecidableEq, Repr

namespace CBlockFileInfo

/-- `SetNull`, also the constructor. -/
def null : CBlockFileInfo := ⟨0, 0, 0, 0, 0, 0, 0⟩

def addBlock (info : CBlockFileInfo) (nHeightIn : UInt32) (nTimeIn : UInt64) : CBlockFileInfo :=
  { info with
    nHeightFirst :=
      if info.nBlocks = 0 ∨ info.nHeightFirst > nHeightIn then nHeightIn else info.nHeightFirst
    nTimeFirst := if info.nBlocks = 0 ∨ info.nTimeFirst > nTimeIn then nTimeIn else info.nTimeFirst
    nBlocks := info.nBlocks + 1
    nHeightLast := if nHeightIn > info.nHeightLast then nHeightIn else info.nHeightLast
    nTimeLast := if nTimeIn > info.nTimeLast then nTimeIn else info.nTimeLast }

theorem toNat_nHeightLast_addBlock (info : CBlockFileInfo) (nHeightIn : UInt32)
    (nTimeIn : UInt64) : (info.addBlock nHeightIn nTimeIn).nHeightLast.toNat =
      max nHeightIn.toNat info.nHeightLast.toNat := by
  rw [addBlock]
  by_cases h : nHeightIn > info.nHeightLast
  · have hlt := UInt32.lt_iff_toNat_lt.1 h
    simp only [if_pos h]
    omega
  · have hle : ¬ info.nHeightLast.toNat < nHeightIn.toNat := fun hlt =>
      h (UInt32.lt_iff_toNat_lt.2 hlt)
    simp only [if_neg h]
    omega

end CBlockFileInfo

/-- A block with data on disk: `nFile` and `nHeight` of its index entry. -/
structure StoredBlock where
  nFile : ℕ
  nHeight : Height
deriving DecidableEq, Repr

structure BlockStore where
  vinfoBlockFile : List CBlockFileInfo
  nLastBlockFile : ℕ
  blocks : List StoredBlock
  lastFile_le : nLastBlockFile ≤ vinfoBlockFile.length
  file_lt : ∀ block ∈ blocks, block.nFile < vinfoBlockFile.length
  height_le : ∀ block ∈ blocks, ∀ info : CBlockFileInfo,
    vinfoBlockFile[block.nFile]? = some info → block.nHeight.val ≤ info.nHeightLast.toNat
  height_lt : ∀ (n : ℕ) (info : CBlockFileInfo), vinfoBlockFile[n]? = some info →
    info.nHeightLast.toNat < 2 ^ 31
  exists_block : ∀ (n : ℕ) (info : CBlockFileInfo), vinfoBlockFile[n]? = some info → info.nSize ≠ 0 →
    ∃ block ∈ blocks, block.nFile = n

def MAX_BLOCKFILE_SIZE : UInt32 := 0x8000000

def BLOCKFILE_CHUNK_SIZE : UInt32 := 0x1000000

def UNDOFILE_CHUNK_SIZE : UInt32 := 0x100000

namespace BlockStore

def empty : BlockStore where
  vinfoBlockFile := []
  nLastBlockFile := 0
  blocks := []
  lastFile_le := Nat.zero_le _
  file_lt _ h := nomatch h
  height_le _ h := nomatch h
  height_lt _ _ h := nomatch h
  exists_block _ _ h := nomatch h

/-- The search of `FindBlockPos` for a file with room, from file `nFile` on; past the last one
files are empty, and a block that does not fit into an empty one is searched for without end. -/
def findFile (nAddSize : UInt32) : List CBlockFileInfo → ℕ → Option ℕ
  | [], nFile => if nAddSize ≥ MAX_BLOCKFILE_SIZE then none else some nFile
  | info :: rest, nFile =>
    if info.nSize + nAddSize ≥ MAX_BLOCKFILE_SIZE then findFile nAddSize rest (nFile + 1)
    else some nFile

/-- `vinfoBlockFile.resize(nFile + 1)` if it is shorter. -/
def resized (vinfoBlockFile : List CBlockFileInfo) (nFile : ℕ) : List CBlockFileInfo :=
  vinfoBlockFile ++ List.replicate (nFile + 1 - vinfoBlockFile.length) .null

theorem length_resized (vinfoBlockFile : List CBlockFileInfo) (nFile : ℕ) :
    (resized vinfoBlockFile nFile).length = max vinfoBlockFile.length (nFile + 1) := by
  simp [resized]
  omega

theorem getElem?_resized {vinfoBlockFile : List CBlockFileInfo} {nFile n : ℕ}
    {info : CBlockFileInfo} (h : (resized vinfoBlockFile nFile)[n]? = some info) :
    vinfoBlockFile[n]? = some info ∨ vinfoBlockFile.length ≤ n ∧ info = .null := by
  rw [resized, List.getElem?_append] at h
  split_ifs at h with hn
  · exact .inl h
  · rw [List.getElem?_replicate] at h
    split_ifs at h
    exact .inr ⟨by omega, (Option.some_inj.1 h).symm⟩

def placed (info : CBlockFileInfo) (nHeight : Height) (nTime : UInt64) (nSize : UInt32) :
    CBlockFileInfo :=
  { info.addBlock nHeight.toUnsigned nTime with nSize := nSize }

/-- A block goes into file `nFile`, whose size becomes what `newSize` makes of the old one. -/
def place (store : BlockStore) (nFile : ℕ) (nHeight : Height) (nTime : UInt64)
    (newSize : UInt32 → UInt32) : BlockStore where
  vinfoBlockFile := (resized store.vinfoBlockFile nFile).modify nFile fun info =>
    placed info nHeight nTime (newSize info.nSize)
  nLastBlockFile := nFile
  blocks := ⟨nFile, nHeight⟩ :: store.blocks
  lastFile_le := by
    rw [List.length_modify, length_resized]
    omega
  file_lt block hblock := by
    rw [List.length_modify, length_resized]
    rcases List.mem_cons.1 hblock with rfl | hblock
    · change nFile < _
      omega
    · have hlt := store.file_lt block hblock
      omega
  height_le block hblock info hinfo := by
    rw [List.getElem?_modify, Option.map_eq_map, Option.map_eq_some_iff] at hinfo
    obtain ⟨old, hold, rfl⟩ := hinfo
    have hbefore : block ∈ store.blocks → block.nHeight.val ≤ old.nHeightLast.toNat := by
      intro hmem
      rcases getElem?_resized hold with hold | ⟨hle, -⟩
      · exact store.height_le block hmem old hold
      · exact absurd (store.file_lt block hmem) (by omega)
    have hplaced : (placed old nHeight nTime (newSize old.nSize)).nHeightLast.toNat =
        max nHeight.val old.nHeightLast.toNat := by
      rw [placed, CBlockFileInfo.toNat_nHeightLast_addBlock, Height.toNat_toUnsigned]
    by_cases hfile : nFile = block.nFile
    · rw [if_pos hfile, hplaced]
      rcases List.mem_cons.1 hblock with rfl | hblock
      · exact le_max_left _ _
      · exact le_max_of_le_right (hbefore hblock)
    · rw [if_neg hfile]
      rcases List.mem_cons.1 hblock with rfl | hblock
      · exact absurd rfl hfile
      · exact hbefore hblock
  height_lt n info hinfo := by
    rw [List.getElem?_modify, Option.map_eq_map, Option.map_eq_some_iff] at hinfo
    obtain ⟨old, hold, rfl⟩ := hinfo
    have hbefore : old.nHeightLast.toNat < 2 ^ 31 := by
      rcases getElem?_resized hold with hold | ⟨-, rfl⟩
      · exact store.height_lt n old hold
      · decide
    split_ifs
    · rw [placed, CBlockFileInfo.toNat_nHeightLast_addBlock, Height.toNat_toUnsigned]
      exact max_lt nHeight.isLt hbefore
    · exact hbefore
  exists_block n info hinfo hsize := by
    rw [List.getElem?_modify, Option.map_eq_map, Option.map_eq_some_iff] at hinfo
    obtain ⟨old, hold, rfl⟩ := hinfo
    by_cases hfile : nFile = n
    · exact ⟨⟨nFile, nHeight⟩, List.mem_cons_self, hfile⟩
    · rw [if_neg hfile] at hsize
      rcases getElem?_resized hold with hold | ⟨-, rfl⟩
      · obtain ⟨block, hmem, hblock⟩ := store.exists_block n old hold hsize
        exact ⟨block, List.mem_cons_of_mem _ hmem, hblock⟩
      · exact absurd rfl hsize

/-- `FindBlockPos` with enough disk space: the block goes into the file where it is known to be,
or else into the first one with room. -/
def findBlockPos (store : BlockStore) (pos : Option (ℕ × UInt32)) (nAddSize : UInt32)
    (nHeight : Height) (nTime : UInt64) : Option BlockStore :=
  match pos with
  | some (nFile, nPos) => some (store.place nFile nHeight nTime fun nSize =>
    if nPos + nAddSize < nSize then nSize else nPos + nAddSize)
  | none => do
    let nFile ← findFile nAddSize (store.vinfoBlockFile.drop store.nLastBlockFile)
      store.nLastBlockFile
    return store.place nFile nHeight nTime fun nSize => nSize + nAddSize

/-- `PruneOneBlockFile`: the blocks of the file have no data any more. -/
def pruneOneBlockFile (store : BlockStore) (fileNumber : ℕ) : BlockStore where
  vinfoBlockFile := store.vinfoBlockFile.set fileNumber .null
  nLastBlockFile := store.nLastBlockFile
  blocks := store.blocks.filter fun block => block.nFile ≠ fileNumber
  lastFile_le := by
    rw [List.length_set]
    exact store.lastFile_le
  file_lt block hblock := by
    rw [List.length_set]
    exact store.file_lt block (List.mem_filter.1 hblock).1
  height_le block hblock info hinfo := by
    obtain ⟨hmem, hne⟩ := List.mem_filter.1 hblock
    have hfile : block.nFile ≠ fileNumber := of_decide_eq_true hne
    rw [List.getElem?_set_ne hfile.symm] at hinfo
    exact store.height_le block hmem info hinfo
  height_lt n info hinfo := by
    rw [List.getElem?_set] at hinfo
    split_ifs at hinfo
    · cases hinfo
      decide
    · exact store.height_lt n info hinfo
  exists_block n info hinfo hsize := by
    rw [List.getElem?_set] at hinfo
    split_ifs at hinfo with hn
    · cases hinfo
      exact absurd rfl hsize
    · obtain ⟨block, hmem, hblock⟩ := store.exists_block n info hinfo hsize
      exact ⟨block, List.mem_filter.2 ⟨hmem, decide_eq_true fun h => hn (h.symm.trans hblock)⟩,
        hblock⟩

def fileSize (store : BlockStore) (nFile : ℕ) : UInt32 :=
  (store.vinfoBlockFile.getD nFile .null).nSize

/-- A block lies in the last file or a later one, behind what was there: the file grows by its
size, below the limit and without overflow, and no other file changes. -/
structure Appends (store : BlockStore) (nAddSize : UInt32) (store' : BlockStore) : Prop where
  lastFile_le : store.nLastBlockFile ≤ store'.nLastBlockFile
  size_lt : ∀ n, store'.fileSize n < MAX_BLOCKFILE_SIZE
  size_le : ∀ n, store.fileSize n ≤ store'.fileSize n
  size_eq : ∀ n, store'.fileSize n =
    if n = store'.nLastBlockFile then store.fileSize n + nAddSize else store.fileSize n

/-- The stores that placing new blocks and pruning files lead to. -/
inductive Reached : BlockStore → Prop
  | empty : Reached empty
  | place {store store' : BlockStore} {nAddSize : UInt32} {nHeight : Height} {nTime : UInt64}
      (h : Reached store) (hadd : nAddSize < MAX_BLOCKFILE_SIZE)
      (hplace : store.findBlockPos none nAddSize nHeight nTime = some store') : Reached store'
  | prune {store : BlockStore} (h : Reached store) (fileNumber : ℕ) :
      Reached (store.pruneOneBlockFile fileNumber)

theorem findBlockPos_of_findFile {store : BlockStore} {nAddSize : UInt32} {nFile : ℕ}
    {nHeight : Height} {nTime : UInt64}
    (h : findFile nAddSize (store.vinfoBlockFile.drop store.nLastBlockFile)
      store.nLastBlockFile = some nFile) : store.findBlockPos none nAddSize nHeight nTime =
      some (store.place nFile nHeight nTime (· + nAddSize)) := by
  rw [findBlockPos, h]
  rfl

section

variable {store : BlockStore} {nAddSize : UInt32} (hadd : nAddSize < MAX_BLOCKFILE_SIZE)

include hadd

theorem findFile_spec (infos : List CBlockFileInfo) (nFile : ℕ) :
    ∃ k, findFile nAddSize infos nFile = some (nFile + k) ∧
      (infos.getD k .null).nSize + nAddSize < MAX_BLOCKFILE_SIZE := by
  induction infos generalizing nFile with
  | nil => exact ⟨0, if_neg (UInt32.not_le.2 hadd), by simpa [CBlockFileInfo.null] using hadd⟩
  | cons info infos ih =>
    by_cases hfull : info.nSize + nAddSize ≥ MAX_BLOCKFILE_SIZE
    · obtain ⟨k, hfind, hroom⟩ := ih (nFile + 1)
      refine ⟨k + 1, ?_, hroom⟩
      rw [findFile, if_pos hfull, hfind, Nat.add_right_comm, Nat.add_assoc]
    · exact ⟨0, if_neg hfull, UInt32.not_le.1 hfull⟩

theorem findBlockPos_spec (hlt : ∀ n, store.fileSize n < MAX_BLOCKFILE_SIZE) (nHeight : Height)
    (nTime : UInt64) : ∃ store', store.findBlockPos none nAddSize nHeight nTime = some store' ∧
      store.Appends nAddSize store' := by
  obtain ⟨k, hfind, hroom⟩ := findFile_spec hadd
    (store.vinfoBlockFile.drop store.nLastBlockFile) store.nLastBlockFile
  replace hroom : store.fileSize (store.nLastBlockFile + k) + nAddSize < MAX_BLOCKFILE_SIZE := by
    simpa [fileSize] using hroom
  have hle := Nat.le_add_right store.nLastBlockFile k
  rw [findBlockPos_of_findFile hfind]
  generalize store.nLastBlockFile + k = nFile at hroom hle
  have hsize : ∀ n, (store.place nFile nHeight nTime (· + nAddSize)).fileSize n =
      if n = nFile then store.fileSize n + nAddSize else store.fileSize n := by
    grind [fileSize, place, resized, placed, CBlockFileInfo.addBlock, CBlockFileInfo.null]
  refine ⟨_, rfl, hle, ?_, ?_, hsize⟩
  · grind
  · grind [MAX_BLOCKFILE_SIZE]

omit hadd in
theorem Reached.fileSize_lt (h : Reached store) : ∀ n, store.fileSize n < MAX_BLOCKFILE_SIZE := by
  induction h with
  | empty => exact fun _ => (by decide : (0 : UInt32) < MAX_BLOCKFILE_SIZE)
  | place _ hadd hplace ih =>
    obtain ⟨_, hrun, happends⟩ := findBlockPos_spec hadd ih _ _
    cases hrun.symm.trans hplace
    exact happends.size_lt
  | prune _ fileNumber ih =>
    intro n
    have hn := ih n
    simp only [fileSize, pruneOneBlockFile] at hn ⊢
    grind [CBlockFileInfo.null, MAX_BLOCKFILE_SIZE]

theorem findBlockPos_appends (h : Reached store) (nHeight : Height) (nTime : UInt64) :
    ∃ store', store.findBlockPos none nAddSize nHeight nTime = some store' ∧
      store.Appends nAddSize store' :=
  findBlockPos_spec hadd h.fileSize_lt nHeight nTime

end

/-- File 0 was filled and is pruned, in file 1 there is room for 255 bytes. -/
def nearlyFull : BlockStore :=
  ((empty.place 0 ⟨0, by decide⟩ 0 (· + 0x7ffffff)).place 1 ⟨1, by decide⟩ 0
    (· + 0x7ffff00)).pruneOneBlockFile 0

theorem nearlyFull_reached : Reached nearlyFull :=
  have hfirst := Reached.place .empty (by decide) (findBlockPos_of_findFile (by decide))
  have hsecond := hfirst.place (by decide) (findBlockPos_of_findFile (by decide))
  hsecond.prune 0

theorem findBlockPos_appends_nearlyFull :
    nearlyFull.vinfoBlockFile.map (·.nSize) = [0, 0x7ffff00] ∧
      (nearlyFull.findBlockPos none 293 2 0).map (·.nLastBlockFile) = some 2 ∧
      ∃ store, nearlyFull.findBlockPos none 293 2 0 = some store ∧ nearlyFull.Appends 293 store :=
  ⟨by decide, by decide, findBlockPos_appends (by decide) nearlyFull_reached 2 0⟩

end BlockStore

end Coinyecoin
