import Coinyecoin.Primitives.Serialize

/-!
# Requests for transactions of a block

`BlockTransactionsRequest`: the indexes are written as distances, each from the
one after the last index. The reader adds them up in a `uint16_t` offset, which
wraps after the index 65535.
-/

namespace Coinyecoin

open Foundation List

structure BlockTransactionsRequest where
  blockhash : uint256
  indexes : List UInt16
deriving DecidableEq, Repr

namespace BlockTransactionsRequest

/-- What the writer puts for the indexes, as `uint64_t`. -/
def distances : ℤ → List UInt16 → List ℕ
  | _, [] => []
  | next, index :: indexes =>
    ((index.toNat - next) % 2 ^ 64).toNat :: distances (index.toNat + 1) indexes

def serialize (req : BlockTransactionsRequest) : Bytes :=
  writeUint256 req.blockhash ++ writeVector writeCompactSize (distances 0 req.indexes)

def readIndex : Reader Fault UInt16 := do
  let index ← (do
    let index ← readCompactSize
    if index > 0xffff then Reader.fail (.thrown "index overflowed 16 bits")
    else return index : Reader Fault ℕ)
  return UInt16.ofNat index

/-- The loop over the indexes that were read. -/
def addOffsets : UInt16 → List UInt16 → Except Fault (List UInt16)
  | _, [] => .ok []
  | offset, index :: indexes =>
    if index.toNat + offset.toNat > 0xffff then .error (.thrown "indexes overflowed 16 bits")
    else do
      let rest ← addOffsets (index + offset + 1) indexes
      .ok ((index + offset) :: rest)

def unserialize : Reader Fault BlockTransactionsRequest := do
  let blockhash ← readUint256
  let indexes ← readVector readIndex
  let indexes ← addOffsets 0 indexes
  return ⟨blockhash, indexes⟩

section

/-- Increasing indexes, none below `next`. -/
def Above (next : ℕ) (indexes : List UInt16) : Prop :=
  indexes.Pairwise (· < ·) ∧ ∀ index ∈ indexes, next ≤ index.toNat

variable {next : ℕ} {index : UInt16} {indexes : List UInt16}

theorem above_cons : Above next (index :: indexes) ↔
    next ≤ index.toNat ∧ Above (index.toNat + 1) indexes := by
  rw [Above, Above, pairwise_cons, forall_mem_cons]
  constructor
  · rintro ⟨⟨hlt, hrest⟩, hindex, -⟩
    exact ⟨hindex, hrest, hlt⟩
  · rintro ⟨hindex, hrest, hlt⟩
    exact ⟨⟨hlt, hrest⟩, hindex, fun i hi => hindex.trans (Nat.le_of_lt (hlt i hi))⟩

theorem Above.length_le (h : Above next indexes) (hnext : next ≤ 65536) :
    indexes.length + next ≤ 65536 := by
  induction indexes generalizing next with
  | nil => rwa [length_nil, Nat.zero_add]
  | cons index indexes ih =>
    obtain ⟨hindex, hrest⟩ := above_cons.1 h
    have hle := ih hrest index.toNat_lt
    rw [length_cons]
    omega

/-- The offset is what was subtracted. -/
theorem Above.addOffsets (h : Above next indexes) :
    (∀ d ∈ distances next indexes, d ≤ 0xffff) ∧
      addOffsets (UInt16.ofNat next) ((distances next indexes).map UInt16.ofNat) =
        .ok indexes := by
  induction indexes generalizing next with
  | nil => exact ⟨by simp [distances], rfl⟩
  | cons index indexes ih =>
    obtain ⟨hindex, hrest⟩ := above_cons.1 h
    obtain ⟨hle, hadd⟩ := ih hrest
    have hlt := index.toNat_lt
    have hdistance : ((index.toNat - (next : ℤ)) % 2 ^ 64).toNat = index.toNat - next := by omega
    have hsum : UInt16.ofNat (index.toNat - next) + UInt16.ofNat next = index := by
      rw [← UInt16.ofNat_add, Nat.sub_add_cancel hindex, UInt16.ofNat_toNat]
    have hnext : index + 1 = UInt16.ofNat (index.toNat + 1) := by
      rw [UInt16.ofNat_add, UInt16.ofNat_toNat]
      rfl
    rw [distances, hdistance, forall_mem_cons, map_cons, BlockTransactionsRequest.addOffsets,
      UInt16.toNat_ofNat', UInt16.toNat_ofNat', if_neg (by omega), hsum, hnext]
    exact ⟨⟨by omega, hle⟩, bind_eq_ok.2 ⟨indexes, hadd, rfl⟩⟩

theorem readIndex_reads {d : ℕ} (hd : d ≤ 0xffff) :
    Reads readIndex (writeCompactSize d) (UInt16.ofNat d) :=
  ((readCompactSize_reads (hd.trans (by decide))).guard (Nat.not_lt.2 hd)).map UInt16.ofNat

theorem length_distances (next : ℤ) : (distances next indexes).length = indexes.length := by
  induction indexes generalizing next with
  | nil => rfl
  | cons index indexes ih => rw [distances, length_cons, length_cons, ih]

theorem unserialize_reads {req : BlockTransactionsRequest} (h : Above 0 req.indexes) :
    Reads unserialize req.serialize req := by
  have hlen : (distances 0 req.indexes).length ≤ MAX_SIZE := by
    rw [length_distances]
    exact (h.length_le (Nat.zero_le _)).trans (by decide)
  refine (readUint256_write req.blockhash).bind fun rest => ?_
  refine bind_eq_ok.2 ⟨_, readVector_reads hlen (fun d hd => readIndex_reads (h.addOffsets.1 d hd))
    rest, ?_⟩
  exact bind_eq_ok.2 ⟨(req.indexes, rest), bind_eq_ok.2 ⟨req.indexes, h.addOffsets.2, rfl⟩, rfl⟩

end

section

/-- The distances, as `unserialize` reads them. -/
def readDistances : Reader Fault (List UInt16) := do
  let _ ← readUint256
  readVector readIndex

/-- Nowhere before the last distance do they lead from `next` to just after 65535. -/
def StaysBelow (next : ℕ) (read : List UInt16) : Prop :=
  ∀ k, k + 1 < read.length → next + ((read.take (k + 1)).map fun d => d.toNat + 1).sum ≠ 65536

variable {offset index : UInt16} {read indexes : List UInt16} {next : ℕ}

theorem staysBelow_cons (hread : read ≠ []) : StaysBelow next (index :: read) ↔
    next + (index.toNat + 1) ≠ 65536 ∧ StaysBelow (next + (index.toNat + 1)) read := by
  have hpos : 0 < read.length := length_pos_iff.2 hread
  constructor
  · intro h
    refine ⟨by simpa using h 0 (by simpa using hpos), fun k hk => ?_⟩
    have hnext := h (k + 1) (by rw [length_cons]; omega)
    rwa [take_succ_cons, map_cons, sum_cons, ← Nat.add_assoc] at hnext
  · rintro ⟨hfirst, hrest⟩ k hk
    cases k with
    | zero => simpa using hfirst
    | succ k =>
      rw [take_succ_cons, map_cons, sum_cons, ← Nat.add_assoc]
      exact hrest k (by rw [length_cons] at hk; omega)

/-- The indexes increase as long as the offset does not wrap, and nothing is above 65535. -/
theorem above_iff_staysBelow (h : addOffsets offset read = .ok indexes) :
    Above offset.toNat indexes ↔ StaysBelow offset.toNat read := by
  induction read generalizing offset indexes with
  | nil =>
    cases h
    exact iff_of_true ⟨Pairwise.nil, by simp⟩ fun k hk => absurd hk (by simp)
  | cons index read ih =>
    rw [addOffsets] at h
    split_ifs at h with hover
    obtain ⟨rest, hrest, heq⟩ := bind_eq_ok.1 h
    cases heq
    have hsum : (index + offset).toNat = index.toNat + offset.toNat := by
      rw [UInt16.toNat_add]
      omega
    rw [above_cons, and_iff_right (by omega)]
    cases read with
    | nil =>
      cases hrest
      exact iff_of_true ⟨Pairwise.nil, by simp⟩ fun k hk => absurd hk (by simp)
    | cons second read =>
      rw [staysBelow_cons (cons_ne_nil _ _),
        show offset.toNat + (index.toNat + 1) = (index + offset).toNat + 1 by omega]
      by_cases hlast : (index + offset).toNat = 0xffff
      · -- the next index would have to be above 65535
        refine iff_of_false (fun habove => ?_) fun hbelow => hbelow.1 (by omega)
        obtain ⟨third, rest, rfl⟩ : ∃ third tail, rest = third :: tail := by
          rw [addOffsets] at hrest
          split_ifs at hrest
          obtain ⟨tail, -, heq⟩ := bind_eq_ok.1 hrest
          exact ⟨_, _, (Except.ok.inj heq).symm⟩
        have hle := (above_cons.1 habove).1
        have hlt := third.toNat_lt
        omega
      · have hlt := (index + offset).toNat_lt
        have hnext : (index + offset + 1).toNat = (index + offset).toNat + 1 := by
          rw [UInt16.toNat_add]
          change (_ + 1) % _ = _
          omega
        rw [and_iff_right (by omega), ← hnext]
        exact ih hrest

/-- Increasing indexes are read as they were written. Indexes that are read off any bytes increase,
so that there are no two the same and at most 65536, exactly if the distances do not lead to just
after 65535 before the last of them. -/
theorem unserialize_increasing_iff (req : BlockTransactionsRequest) (bytes rest : Bytes) :
    (req.indexes.Pairwise (· < ·) → Reads unserialize req.serialize req) ∧
    (unserialize bytes = .ok (req, rest) → ∃ read, readDistances bytes = .ok (read, rest) ∧
      (req.indexes.Pairwise (· < ·) ↔ StaysBelow 0 read) ∧
      (StaysBelow 0 read → req.indexes.Nodup ∧ req.indexes.length ≤ 65536)) := by
  refine ⟨fun h => unserialize_reads ⟨h, fun _ _ => Nat.zero_le _⟩, fun h => ?_⟩
  obtain ⟨⟨blockhash, s₁⟩, hhash, h⟩ := bind_eq_ok.1 h
  obtain ⟨⟨read, s₂⟩, hread, h⟩ := bind_eq_ok.1 h
  obtain ⟨⟨indexes, s₃⟩, hlift, h⟩ := bind_eq_ok.1 h
  obtain ⟨_, hadd, heq⟩ := bind_eq_ok.1 hlift
  cases heq
  cases h
  have habove : Above 0 indexes ↔ StaysBelow 0 read := above_iff_staysBelow hadd
  refine ⟨read, bind_eq_ok.2 ⟨_, hhash, hread⟩, ?_, fun h => ?_⟩
  · rw [← habove]
    exact ⟨fun h => ⟨h, fun _ _ => Nat.zero_le _⟩, fun h => h.1⟩
  · have h := habove.2 h
    exact ⟨h.1.imp UInt16.ne_of_lt, h.length_le (Nat.zero_le _)⟩

end

/-- The offset wraps to zero, and the same index is read again. -/
theorem unserialize_repeated :
    unserialize (writeUint256 0 ++ [2, 0xfd, 0xff, 0xff, 0xfd, 0xff, 0xff]) =
      .ok (⟨0, [0xffff, 0xffff]⟩, []) := by
  decide +kernel

end BlockTransactionsRequest

end Coinyecoin
