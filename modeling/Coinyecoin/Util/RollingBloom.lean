import Mathlib.Data.List.Basic
import Mathlib.Logic.Function.Iterate
import Mathlib.Order.Basic

/-!
# The rolling bloom filter

`CRollingBloomFilter`: every bit of the table is a pair of bits, the generation
that set it last, or zero. A new generation wipes what is left of the one three
before it. The integers `data[2 i]` and `data[2 i + 1]` are kept as one pair, and
the hash functions, with the tweak, are parameters.
-/

namespace Coinyecoin

open List

/-- The two bits of every bit of the filter, in integers of 64. -/
abbrev BitTable := List (BitVec 64 × BitVec 64)

structure CRollingBloomFilter where
  nEntriesPerGeneration : ℕ
  nEntriesThisGeneration : ℕ
  nGeneration : ℕ
  data : BitTable

namespace CRollingBloomFilter

/-- The place of a hash: the pair of integers, and the bit. -/
def place (size : ℕ) (h : UInt32) : ℕ × ℕ := ((h >>> 6).toNat % (2 * size) / 2, (h &&& 0x3f).toNat)

/-- A bit of an integer, set to `b`. -/
def setBit (x : BitVec 64) (bit b : ℕ) : BitVec 64 :=
  (x &&& ~~~(1#64 <<< bit)) ||| (BitVec.ofNat 64 b <<< bit)

/-- The bits of a hash, set to the generation. -/
def mark (nGeneration : ℕ) (data : BitTable) (h : UInt32) : BitTable :=
  let (pos, bit) := place data.length h
  data.modify pos fun p => (setBit p.1 bit (nGeneration % 2), setBit p.2 bit (nGeneration / 2))

/-- Wipes the entries of a generation. -/
def wipe (nGeneration : ℕ) (p : BitVec 64 × BitVec 64) : BitVec 64 × BitVec 64 :=
  let nGenerationMask1 := -BitVec.ofNat 64 (nGeneration % 2)
  let nGenerationMask2 := -BitVec.ofNat 64 (nGeneration / 2)
  let mask := (p.1 ^^^ nGenerationMask1) ||| (p.2 ^^^ nGenerationMask2)
  (p.1 &&& mask, p.2 &&& mask)

def nextGeneration (nGeneration : ℕ) : ℕ := if nGeneration + 1 = 4 then 1 else nGeneration + 1

/-- The filter after the first part of `insert`. -/
def turnOver (f : CRollingBloomFilter) : CRollingBloomFilter :=
  if f.nEntriesThisGeneration = f.nEntriesPerGeneration then
    { f with
      nEntriesThisGeneration := 0
      nGeneration := nextGeneration f.nGeneration
      data := f.data.map (wipe (nextGeneration f.nGeneration)) }
  else f

section

variable {α : Type} (hashes : α → List UInt32)

/-- The values of `RollingBloomHash` for a key. -/
def rollingBloomHashes (nHashFuncs : ℕ) (hash : ℕ → α → UInt32) (vKey : α) : List UInt32 :=
  (range nHashFuncs).map (hash · vKey)

def insert (f : CRollingBloomFilter) (vKey : α) : CRollingBloomFilter :=
  let f := f.turnOver
  { f with
    nEntriesThisGeneration := f.nEntriesThisGeneration + 1
    data := (hashes vKey).foldl (mark f.nGeneration) f.data }

def contains (f : CRollingBloomFilter) (vKey : α) : Bool :=
  (hashes vKey).all fun h =>
    let (pos, bit) := place f.data.length h
    let p := f.data.getD pos (0, 0)
    (p.1 ||| p.2).getLsbD bit

/-- A filter for `nElements` elements with a table of `2 * size` integers, after `reset`. -/
def create (nElements : UInt32) (size : ℕ) : CRollingBloomFilter :=
  ⟨((nElements + 1) / 2).toNat, 0, 1, replicate size (0, 0)⟩

/-- The generation in a bit of the table, as the two bits. -/
def cell (data : BitTable) (spot : ℕ × ℕ) : Bool × Bool :=
  ((data.getD spot.1 (0, 0)).1.getLsbD spot.2, (data.getD spot.1 (0, 0)).2.getLsbD spot.2)

def code (nGeneration : ℕ) : Bool × Bool := (nGeneration % 2 = 1, nGeneration / 2 = 1)

theorem getLsbD_setBit {x : BitVec 64} {bit b j : ℕ} (hb : b < 2) (hj : j < 64) :
    (setBit x bit b).getLsbD j = if j = bit then decide (b = 1) else x.getLsbD j := by
  have hone : (1#64 <<< bit).getLsbD j = decide (j = bit) := by
    rw [BitVec.getLsbD_shiftLeft, BitVec.getLsbD_one]
    by_cases h : j = bit
    · simp [h, h ▸ hj]
    · simp [h]
      omega
  rw [setBit, BitVec.getLsbD_or, BitVec.getLsbD_and, BitVec.getLsbD_not, hone]
  obtain rfl | rfl : b = 0 ∨ b = 1 := by omega
  · by_cases h : j = bit <;> simp [h, hj]
  · rw [hone]
    by_cases h : j = bit <;> simp [h, hj]

theorem getLsbD_mask {b j : ℕ} (hb : b < 2) (hj : j < 64) :
    (-BitVec.ofNat 64 b).getLsbD j = decide (b = 1) := by
  obtain rfl | rfl : b = 0 ∨ b = 1 := by omega
  · simp
  · rw [show -BitVec.ofNat 64 1 = BitVec.allOnes 64 by decide, BitVec.getLsbD_allOnes]
    simp [hj]

variable {data : BitTable} {g : ℕ} {spot : ℕ × ℕ} {h : UInt32}

theorem length_foldl_mark (hs : List UInt32) : (hs.foldl (mark g) data).length = data.length := by
  induction hs generalizing data with
  | nil => rfl
  | cons h hs ih => rw [foldl_cons, ih, mark, length_modify]

section

variable (hg : g < 4) (hbit : spot.2 < 64)
include hg hbit

theorem cell_wipe : cell (data.map (wipe g)) spot =
    if cell data spot = code g then (false, false) else cell data spot := by
  have hget : (data.map (wipe g)).getD spot.1 (0, 0) = wipe g (data.getD spot.1 (0, 0)) := by
    rw [getD_eq_getElem?_getD, getD_eq_getElem?_getD, getElem?_map]
    cases data[spot.1]? with
    | none => simp [wipe]
    | some p => rfl
  rw [cell, cell, hget, wipe, code]
  simp only [BitVec.getLsbD_and, BitVec.getLsbD_or, BitVec.getLsbD_xor,
    getLsbD_mask (Nat.mod_lt g Nat.two_pos) hbit, getLsbD_mask (by omega : g / 2 < 2) hbit]
  cases (data.getD spot.1 (0, 0)).1.getLsbD spot.2 <;>
    cases (data.getD spot.1 (0, 0)).2.getLsbD spot.2 <;>
    cases decide (g % 2 = 1) <;> cases decide (g / 2 = 1) <;> rfl

theorem cell_mark (hdata : 0 < data.length) : cell (mark g data h) spot =
    if spot = place data.length h then code g else cell data spot := by
  have hlt : (place data.length h).1 < data.length :=
    Nat.div_lt_of_lt_mul (Nat.mod_lt _ (Nat.mul_pos Nat.two_pos hdata))
  rw [mark]
  generalize place data.length h = p at hlt
  have hsame : spot = p ↔ p.1 = spot.1 ∧ spot.2 = p.2 :=
    Prod.ext_iff.trans (and_congr_left' eq_comm)
  simp only [cell, getD_eq_getElem?_getD, getElem?_modify, Option.map_eq_map, hsame]
  by_cases hpos : p.1 = spot.1
  · rw [hpos] at hlt
    simp only [hpos, if_true, getElem?_eq_getElem hlt, Option.map_some, Option.getD_some, true_and,
      getLsbD_setBit (Nat.mod_lt g Nat.two_pos) hbit,
      getLsbD_setBit (by omega : g / 2 < 2) hbit]
    split_ifs
    · rfl
    · rfl
  · simp only [hpos, if_false, false_and, Option.map_id']

theorem cell_foldl_mark (hs : List UInt32) (hdata : 0 < data.length) :
    cell (hs.foldl (mark g) data) spot =
      if spot ∈ hs.map (place data.length) then code g else cell data spot := by
  induction hs generalizing data with
  | nil => rfl
  | cons h hs ih =>
    have hlength : (mark g data h).length = data.length := length_modify _ _ _
    rw [foldl_cons, ih (hlength ▸ hdata), hlength, cell_mark hg hbit hdata, map_cons]
    simp only [mem_cons]
    by_cases hrest : spot ∈ hs.map (place data.length)
    · rw [if_pos hrest, if_pos (.inr hrest)]
    · simp only [hrest, if_false, or_false]

end

end

section

def previous (nGeneration : ℕ) : ℕ := if nGeneration = 1 then 3 else nGeneration - 1

/-- The bits of some hashes were set by this generation or one of the `age` before it. -/
def Held (g : ℕ) (data : BitTable) (age : ℕ) (hs : List UInt32) : Prop :=
  ∀ h ∈ hs, ∃ i ≤ age, cell data (place data.length h) = code (previous^[i] g)

/-- The keys that were inserted, last first: those of this generation and of the two before it are
held. -/
structure Recent (m size : ℕ) (keys : List (List UInt32)) (f : CRollingBloomFilter) : Prop where
  perGeneration : f.nEntriesPerGeneration = m
  length : f.data.length = size
  generation : 1 ≤ f.nGeneration ∧ f.nGeneration < 4
  held : ∀ j hs, keys[j]? = some hs → ∀ age ≤ 2, j < f.nEntriesThisGeneration + age * m →
    Held f.nGeneration f.data age hs

variable {m size g age : ℕ} {data : BitTable} {keys : List (List UInt32)} {hs : List UInt32}
  {f : CRollingBloomFilter}

theorem place_lt {size : ℕ} (h : UInt32) : (place size h).2 < 64 := by
  rw [place, UInt32.toNat_and]
  exact Nat.and_lt_two_pow _ (n := 6) (by decide)

theorem previous_nextGeneration (hg : 1 ≤ g ∧ g < 4) :
    previous (nextGeneration g) = g ∧ (1 ≤ nextGeneration g ∧ nextGeneration g < 4) ∧
      (∀ i ≤ 1, code (previous^[i] g) ≠ code (nextGeneration g)) ∧
      ∀ i ≤ 2, code (previous^[i] g) ≠ (false, false) := by
  obtain rfl | rfl | rfl : g = 1 ∨ g = 2 ∨ g = 3 := by omega
  all_goals decide

theorem Held.wipe (hg : 1 ≤ g ∧ g < 4) (hage : age ≤ 1) (h : Held g data age hs) :
    Held (nextGeneration g) (data.map (wipe (nextGeneration g))) (age + 1) hs := by
  obtain ⟨hprevious, hnext, hne, -⟩ := previous_nextGeneration hg
  intro x hx
  obtain ⟨i, hi, hcell⟩ := h x hx
  refine ⟨i + 1, Nat.succ_le_succ hi, ?_⟩
  rw [length_map, Function.iterate_succ_apply, hprevious, cell_wipe hnext.2 (place_lt _), hcell,
    if_neg (hne i (Nat.le_trans hi hage))]

theorem Held.mark (new : List UInt32) (hg : g < 4) (hdata : 0 < data.length)
    (h : hs = new ∨ Held g data age hs) : Held g (new.foldl (mark g) data) age hs := by
  intro x hx
  rw [length_foldl_mark, cell_foldl_mark hg (place_lt _) new hdata]
  split_ifs with hnew
  · exact ⟨0, Nat.zero_le _, rfl⟩
  · obtain rfl | h := h
    · exact absurd (mem_map_of_mem hx) hnew
    · exact h x hx

theorem Recent.turnOver (h : Recent m size keys f) : Recent m size keys f.turnOver := by
  rw [CRollingBloomFilter.turnOver]
  split_ifs with hfull
  · refine ⟨h.perGeneration, (length_map _).trans h.length,
      (previous_nextGeneration h.generation).2.1, fun j hs hkey age hage hj => ?_⟩
    -- the keys of a generation move one back, and the oldest are no longer held
    cases age with
    | zero => simp at hj
    | succ age =>
      refine (h.held j hs hkey age (by omega) ?_).wipe h.generation (by omega)
      rw [hfull, h.perGeneration, Nat.add_comm, ← Nat.succ_mul]
      simpa using hj
  · exact h

variable {α : Type} {hashes : α → List UInt32}

theorem Recent.insert (hsize : 0 < size) (h : Recent m size keys f) (vKey : α) :
    Recent m size (hashes vKey :: keys) (f.insert hashes vKey) := by
  have hold := h.turnOver
  refine ⟨hold.perGeneration, (length_foldl_mark _).trans hold.length, hold.generation,
    fun j hs hkey age hage hj => .mark _ hold.generation.2 (by rwa [hold.length]) ?_⟩
  cases j with
  | zero => exact .inl (Option.some_inj.1 hkey).symm
  | succ j =>
    refine .inr (hold.held j hs hkey age hage ?_)
    dsimp only [CRollingBloomFilter.insert] at hj
    omega

theorem Recent.contains (h : Recent m size keys f) {vKey : α} {j : ℕ}
    (hkey : keys[j]? = some (hashes vKey)) (hj : j < 2 * m) : f.contains hashes vKey = true := by
  rw [CRollingBloomFilter.contains, all_eq_true]
  intro x hx
  obtain ⟨i, hi, hcell⟩ := h.held j _ hkey 2 (Nat.le_refl 2) (by omega) x hx
  have hset := hcell ▸ (previous_nextGeneration h.generation).2.2.2 i hi
  dsimp only
  rw [BitVec.getLsbD_or, Bool.or_eq_true, Decidable.or_iff_not_not_and_not]
  rintro ⟨hfirst, hsecond⟩
  exact hset (Prod.ext (Bool.eq_false_iff.2 hfirst) (Bool.eq_false_iff.2 hsecond))

theorem Recent.foldl_insert (hsize : 0 < size) (later : List α) (h : Recent m size keys f) :
    Recent m size ((later.map hashes).reverse ++ keys)
      (later.foldl (CRollingBloomFilter.insert hashes) f) := by
  induction later generalizing f keys with
  | nil => exact h
  | cons vKey later ih =>
    rw [map_cons, reverse_cons, append_assoc]
    exact ih (h.insert hsize vKey)

/-- Of the keys inserted since `reset` the last `nElements` are reported: they reach back at most
to the second generation before this one. -/
theorem contains_of_mem_last {nElements : UInt32} (nHashFuncs : ℕ) (hash : ℕ → α → UInt32)
    {vKeys : List α} {vKey : α} (hmax : nElements.toNat < 0xffffffff) (hsize : 0 < size)
    (hkey : vKey ∈ vKeys.reverse.take nElements.toNat) :
    (vKeys.foldl (insert (rollingBloomHashes nHashFuncs hash)) (create nElements size)).contains
      (rollingBloomHashes nHashFuncs hash) vKey = true := by
  obtain ⟨j, hj⟩ := mem_iff_getElem?.1 hkey
  rw [getElem?_take] at hj
  split_ifs at hj with hlt
  have hhalf : ((nElements + 1) / 2).toNat = (nElements.toNat + 1) / 2 := by
    rw [UInt32.toNat_div, UInt32.toNat_add, UInt32.toNat_one, Nat.mod_eq_of_lt (by omega)]
    rfl
  have hstart : Recent ((nElements + 1) / 2).toNat size [] (create nElements size) :=
    ⟨rfl, length_replicate, ⟨Nat.le_refl 1, by simp [create]⟩, fun j hs hkey => by simp at hkey⟩
  refine (hstart.foldl_insert hsize vKeys).contains (j := j) ?_ (by omega)
  rw [append_nil, ← map_reverse, getElem?_map, hj]
  rfl

theorem contains_of_mem_last_two :
    ([5, 6, 7].foldl (insert (rollingBloomHashes 1 fun _ => UInt32.ofNat)) (create 2 1)).contains
      (rollingBloomHashes 1 fun _ => UInt32.ofNat) 6 = true :=
  contains_of_mem_last 1 _ (by decide) (by decide) (by decide)

end

end CRollingBloomFilter

end Coinyecoin
