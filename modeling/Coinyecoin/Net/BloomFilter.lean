import Coinyecoin.Primitives.Serialize
import Coinyecoin.Script.Interpreter

/-!
# The filter of a peer

`CBloomFilter` and the messages that replace it or add to it. `MurmurHash3`, the hash
of a transaction and the test by `Solver` are parameters. `inserted` is not in the
source: it records what was put into the filter since it was made.
-/

namespace Coinyecoin

open Foundation List

structure CBloomFilter where
  vData : Bytes
  isFull : Bool
  isEmpty : Bool
  nHashFuncs : UInt32
  nTweak : UInt32
  nFlags : UInt8
  inserted : List Bytes

structure BloomEnv where
  murmurHash3 : UInt32 → Bytes → UInt32
  getHash : CTransaction → uint256
  /-- `Solver` succeeds with `TX_PUBKEY` or `TX_MULTISIG`. -/
  isPubkeyOrMultisig : CScript → Bool
  /-- `NODE_BLOOM` is among the local services. -/
  nodeBloom : Bool

namespace CBloomFilter

def MAX_BLOOM_FILTER_SIZE : ℕ := 36000

def MAX_HASH_FUNCS : UInt32 := 50

def empty : CBloomFilter := ⟨[], true, false, 0, 0, 0, []⟩

def isWithinSizeConstraints (f : CBloomFilter) : Bool :=
  f.vData.length ≤ MAX_BLOOM_FILTER_SIZE && f.nHashFuncs ≤ MAX_HASH_FUNCS

def updateEmptyFull (f : CBloomFilter) : CBloomFilter :=
  { f with isFull := f.vData.all (· == 0xff), isEmpty := f.vData.all (· == 0) }

def mask (nIndex : ℕ) : UInt8 := 1 <<< UInt8.ofNat (nIndex % 8)

def setBit (vData : Bytes) (nIndex : ℕ) : Except Fault Bytes := do
  let b ← vectorAt vData (nIndex / 8)
  vectorSet vData (nIndex / 8) (b ||| mask nIndex)

def testBit (vData : Bytes) (nIndex : ℕ) : Except Fault Bool := do
  let b ← vectorAt vData (nIndex / 8)
  pure (b &&& mask nIndex != 0)

def outPointBytes (outpoint : COutPoint) : Bytes :=
  writeUint256 outpoint.hash ++ leBytes 4 outpoint.n.toNat

section

variable (env : BloomEnv) (f : CBloomFilter)

/-- `Hash`, where the size is not zero. -/
def index (vKey : Bytes) (nHashNum : ℕ) : ℕ :=
  (env.murmurHash3 (UInt32.ofNat nHashNum * 0xFBA4C795 + f.nTweak) vKey).toNat %
    (f.vData.length * 8)

def hash (vKey : Bytes) (nHashNum : ℕ) : Except Fault ℕ :=
  if f.vData.length * 8 = 0 then .error .divisionByZero else .ok (f.index env vKey nHashNum)

def insert (vKey : Bytes) : Except Fault CBloomFilter :=
  let f := { f with inserted := vKey :: f.inserted }
  if f.isFull then .ok f
  else do
    let vData ← (range f.nHashFuncs.toNat).foldlM
      (fun vData i => do setBit vData (← f.hash env vKey i)) f.vData
    pure { f with vData, isEmpty := false }

def contains (vKey : Bytes) : Except Fault Bool :=
  if f.isFull then .ok true
  else if f.isEmpty then .ok false
  else (range f.nHashFuncs.toNat).allM fun i => do testBit f.vData (← f.hash env vKey i)

/-- The loop over the elements of a script, up to one that is in the filter. The first argument
bounds its rounds; every operation takes a byte. -/
def matchScript : ℕ → CScript → Except Fault Bool
  | 0, _ => .ok false
  | fuel + 1, pc =>
    match pc.getOpValue with
    | none => .ok false
    | some (_, data, pc) => do
      if data ≠ [] then
        if ← f.contains env data then return true
      matchScript fuel pc

def BLOOM_UPDATE_ALL : UInt8 := 1

def BLOOM_UPDATE_P2PUBKEY_ONLY : UInt8 := 2

def BLOOM_UPDATE_MASK : UInt8 := 3

/-- Whether the outpoint of a matching output is inserted. -/
def updates (scriptPubKey : CScript) : Bool :=
  f.nFlags &&& BLOOM_UPDATE_MASK == BLOOM_UPDATE_ALL ||
    f.nFlags &&& BLOOM_UPDATE_MASK == BLOOM_UPDATE_P2PUBKEY_ONLY &&
      env.isPubkeyOrMultisig scriptPubKey

/-- One round of the loop over the outputs, with `fFound`. -/
def visitOutput (hash : uint256) : Bool × CBloomFilter → CTxOut × ℕ →
    Except Fault (Bool × CBloomFilter)
  | (fFound, f), (txout, i) => do
    if ← f.matchScript env txout.scriptPubKey.length txout.scriptPubKey then
      if f.updates env txout.scriptPubKey then
        return (true, ← f.insert env (outPointBytes ⟨hash, UInt32.ofNat i⟩))
      return (true, f)
    return (fFound, f)

def isRelevantAndUpdate (tx : CTransaction) : Except Fault (Bool × CBloomFilter) := do
  if f.isFull then return (true, f)
  if f.isEmpty then return (false, f)
  let hash := env.getHash tx
  let fFound ← f.contains env (writeUint256 hash)
  let (fFound, f) ← tx.vout.zipIdx.foldlM (visitOutput env hash) (fFound, f)
  if fFound then return (true, f)
  let fFound ← tx.vin.anyM fun txin => do
    if ← f.contains env (outPointBytes txin.prevout) then return true
    f.matchScript env txin.scriptSig.length txin.scriptSig
  return (fFound, f)

end

end CBloomFilter

inductive FilterEvent
  | filterload (filter : CBloomFilter)
  | filteradd (vData : Bytes)
  | filterclear
  | isRelevantAndUpdate (tx : CTransaction)

/-- What a message or a transaction does to `pfilter`. -/
def stepFilter (env : BloomEnv) (pfilter : Option CBloomFilter) :
    FilterEvent → Except Fault (Option CBloomFilter)
  | .filterload filter => pure (
    if filter.isWithinSizeConstraints then some { filter.updateEmptyFull with inserted := [] }
    else pfilter)
  | .filteradd vData =>
    if vData.length > Script.MAX_SCRIPT_ELEMENT_SIZE then pure pfilter
    else pfilter.mapM (·.insert env vData)
  | .filterclear => pure (if env.nodeBloom then some .empty else pfilter)
  | .isRelevantAndUpdate tx =>
    pfilter.mapM fun filter => Prod.snd <$> filter.isRelevantAndUpdate env tx

namespace CBloomFilter

def hasBit (vData : Bytes) (nIndex : ℕ) : Bool := vData.getD (nIndex / 8) 0 &&& mask nIndex != 0

variable {env : BloomEnv} {f : CBloomFilter} {vData vKey : Bytes} {n : ℕ}

theorem mask_ne_zero (n : ℕ) : mask n ≠ 0 := by
  have hmod := Nat.mod_lt n (by decide : 8 > 0)
  rw [mask]
  generalize n % 8 = k at hmod
  revert k
  decide

theorem or_and (a b c : UInt8) : (a ||| b) &&& c = a &&& c ||| b &&& c := by
  apply UInt8.toBitVec_inj.1
  ext i
  simp [Bool.and_or_distrib_right]

theorem setBit_ok (hn : n / 8 < vData.length) :
    ∃ v, setBit vData n = .ok v ∧ v.length = vData.length ∧
      ∀ k, hasBit vData k = true ∨ k = n → hasBit v k = true := by
  refine ⟨vData.set (n / 8) (vData[n / 8] ||| mask n), ?_, length_set, fun k hk => ?_⟩
  · rw [setBit, vectorAt_eq_ok.2 (getElem?_eq_getElem hn), ok_bind, vectorSet_of_lt hn]
  · simp only [hasBit, bne_iff_ne, ne_eq, getD_eq_getElem?_getD, getElem?_set] at hk ⊢
    by_cases hsame : n / 8 = k / 8
    · rw [if_pos hsame, if_pos hn, Option.getD_some, or_and, UInt8.or_eq_zero_iff]
      rintro ⟨hold, hnew⟩
      obtain hk | rfl := hk
      · rw [← hsame, getElem?_eq_getElem hn] at hk
        exact hk hold
      · exact mask_ne_zero k (by simpa using hnew)
    · rw [if_neg hsame]
      exact hk.resolve_right fun h => hsame (h ▸ rfl)

theorem testBit_ok (hn : n / 8 < vData.length) : testBit vData n = .ok (hasBit vData n) := by
  rw [testBit, vectorAt_eq_ok.2 (getElem?_eq_getElem hn), ok_bind, hasBit,
    getD_eq_getElem?_getD, getElem?_eq_getElem hn]
  rfl

/-- Unless it is full, the filter has room for bits, and those of all that was inserted are set. -/
def Sound (env : BloomEnv) (f : CBloomFilter) : Prop :=
  f.isFull = false → 0 < f.vData.length ∧ ∀ vKey ∈ f.inserted, f.isEmpty = false ∧
    ∀ i < f.nHashFuncs.toNat, hasBit f.vData (f.index env vKey i) = true

section

variable (hdata : 0 < f.vData.length)
include hdata

theorem index_lt (vKey : Bytes) (i : ℕ) : f.index env vKey i / 8 < f.vData.length :=
  Nat.div_lt_of_lt_mul (Nat.mul_comm .. ▸ Nat.mod_lt _ (Nat.mul_pos hdata (by decide)))

theorem hash_ok (vKey : Bytes) (i : ℕ) : f.hash env vKey i = .ok (f.index env vKey i) :=
  if_neg (by omega)

theorem contains_eq (hfull : f.isFull = false) (vKey : Bytes) :
    f.contains env vKey = .ok (!f.isEmpty &&
      (range f.nHashFuncs.toNat).all fun i => hasBit f.vData (f.index env vKey i)) := by
  rw [contains, hfull]
  cases f.isEmpty with
  | true => rfl
  | false =>
    simp only [hash_ok hdata, ok_bind, testBit_ok (index_lt hdata _ _)]
    exact allM_pure

theorem setBits_ok (vKey : Bytes) (l : List ℕ) (hlength : vData.length = f.vData.length) :
    ∃ v, l.foldlM (fun vData i => do setBit vData (← f.hash env vKey i)) vData = .ok v ∧
      v.length = f.vData.length ∧ ∀ k, hasBit vData k = true ∨ (∃ i ∈ l, k = f.index env vKey i) →
        hasBit v k = true := by
  induction l generalizing vData with
  | nil => exact ⟨vData, rfl, hlength, by simp⟩
  | cons i l ih =>
    obtain ⟨v, hset, hv, hbits⟩ := setBit_ok (hlength ▸ @index_lt env f hdata vKey i)
    obtain ⟨w, hrun, hw, hrest⟩ := ih (hv.trans hlength)
    refine ⟨w, ?_, hw, fun k hk => hrest k ?_⟩
    · rw [foldlM_cons, hash_ok hdata, ok_bind, hset, ok_bind, hrun]
    · obtain hk | ⟨j, hj, rfl⟩ := hk
      · exact .inl (hbits k (.inl hk))
      · obtain rfl | hj := mem_cons.1 hj
        · exact .inl (hbits _ (.inr rfl))
        · exact .inr ⟨j, hj, rfl⟩

end

section

variable (h : f.Sound env)
include h

theorem Sound.contains (vKey : Bytes) :
    Ends (fun _ => False) (fun found => vKey ∈ f.inserted → found = true)
      (f.contains env vKey) := by
  cases hfull : f.isFull with
  | true =>
    rw [CBloomFilter.contains, hfull]
    exact fun _ => rfl
  | false =>
    rw [contains_eq (h hfull).1 hfull]
    intro hkey
    obtain ⟨hempty, hbits⟩ := (h hfull).2 vKey hkey
    simpa [hempty] using hbits

theorem Sound.insert (vKey : Bytes) : Ends (fun _ => False) (Sound env) (f.insert env vKey) := by
  rw [CBloomFilter.insert]
  dsimp only
  split_ifs with hfull
  · exact fun hnot => absurd (hfull.symm.trans hnot) (by decide)
  · obtain ⟨hdata, hkeys⟩ := h (Bool.eq_false_iff.2 hfull)
    obtain ⟨v, hrun, hv, hbits⟩ :=
      @setBits_ok env { f with inserted := vKey :: f.inserted } _ hdata vKey
        (range f.nHashFuncs.toNat) rfl
    rw [hrun, ok_bind]
    refine fun _ => ⟨hv ▸ hdata, fun key hkey => ⟨rfl, fun i hi => ?_⟩⟩
    dsimp only [index]
    rw [hv]
    refine hbits _ ?_
    obtain rfl | hkey := mem_cons.1 hkey
    · exact .inr ⟨i, mem_range.2 hi, rfl⟩
    · exact .inl ((hkeys key hkey).2 i hi)

theorem Sound.matchScript (fuel : ℕ) (pc : CScript) :
    Ends (fun _ => False) (fun _ => True) (f.matchScript env fuel pc) := by
  induction fuel generalizing pc with
  | zero => trivial
  | succ fuel ih =>
    rw [CBloomFilter.matchScript]
    cases pc.getOpValue with
    | none => trivial
    | some op =>
      dsimp only
      split_ifs
      · refine (h.contains op.2.1).bind fun found _ => ?_
        cases found with
        | true => trivial
        | false => exact ih _
      · exact ih _

theorem Sound.visitOutput (hash : uint256) (fFound : Bool) (out : CTxOut × ℕ) :
    Ends (fun _ => False) (fun r => Sound env r.2) (visitOutput env hash (fFound, f) out) := by
  refine (h.matchScript _ _).bind fun found _ => ?_
  cases found with
  | true =>
    rw [if_pos rfl]
    split_ifs
    · exact (h.insert _).bind fun f hf => hf
    · exact h
  | false => exact h

theorem Sound.isRelevantAndUpdate (tx : CTransaction) :
    Ends (fun _ => False) (fun r => Sound env r.2) (f.isRelevantAndUpdate env tx) := by
  rw [CBloomFilter.isRelevantAndUpdate]
  split_ifs
  · exact h
  · exact h
  · refine (h.contains _).bind fun fFound _ => ?_
    have hloop : Ends (fun _ => False) (fun r => Sound env r.2)
        (tx.vout.zipIdx.foldlM (CBloomFilter.visitOutput env (env.getHash tx)) (fFound, f)) :=
      Ends.foldlM (P := fun r : Bool × CBloomFilter => r.2.Sound env)
        (fun r out hr => hr.visitOutput _ r.1 out) h _
    refine hloop.bind fun r hr => ?_
    dsimp only
    split_ifs
    · exact hr
    · refine (Ends.anyM (fun txin => ?_) _).bind fun fFound _ => hr
      refine (hr.contains _).bind fun found _ => ?_
      cases found with
      | true => trivial
      | false => exact hr.matchScript _ _

end

end CBloomFilter

theorem sound_stepFilter {env : BloomEnv} {pfilter : Option CBloomFilter} {event : FilterEvent}
    (h : ∀ f ∈ pfilter, f.Sound env) :
    Ends (fun _ => False) (fun pfilter => ∀ f ∈ pfilter, f.Sound env)
      (stepFilter env pfilter event) := by
  have hmap {op : CBloomFilter → Except Fault CBloomFilter}
      (hop : ∀ f, f.Sound env → Ends (fun _ => False) (·.Sound env) (op f)) :
      Ends (fun _ => False) (fun pfilter => ∀ f ∈ pfilter, f.Sound env) (pfilter.mapM op) := by
    cases pfilter with
    | none => exact h
    | some f => exact (hop f (h f rfl)).bind fun f hf g hg => Option.some_inj.1 hg ▸ hf
  cases event with
  | filterload filter =>
    intro f hf
    split_ifs at hf
    · obtain rfl := Option.some_inj.1 hf
      refine fun hfull => ⟨length_pos_iff.2 fun hnil => ?_, by simp⟩
      simp [CBloomFilter.updateEmptyFull, show filter.vData = [] from hnil] at hfull
    · exact h f hf
  | filteradd vData =>
    rw [stepFilter]
    split_ifs
    · exact h
    · exact hmap fun f hf => hf.insert vData
  | filterclear =>
    intro f hf
    split_ifs at hf
    · obtain rfl := Option.some_inj.1 hf
      exact fun hfull => absurd hfull (by decide)
    · exact h f hf
  | isRelevantAndUpdate tx =>
    exact hmap fun f hf => (hf.isRelevantAndUpdate tx).bind fun r hr => hr

end Coinyecoin
