import Coinyecoin.Foundation.ByteStream
import Coinyecoin.Primitives.PureHeader
import Coinyecoin.Primitives.Transaction

/-!
# Serialization

The byte format of transactions: fixed-width integers are little-endian, a
vector is its length as a compact size and then its elements. A reader throws
where `CDataStream` and `ReadCompactSize` throw. That the source reads long
vectors in blocks makes no difference to what it reads or throws.

A transaction with a witness is written with a marker for an empty `vin` and a
byte of flags; `unserializeTransaction` tells the formats apart by an empty `vin`.
-/

namespace Coinyecoin

open Foundation List

variable {txin : CTxIn} {txout : CTxOut}

def MAX_SIZE : ℕ := 0x02000000

def readLE (width : ℕ) : Reader Fault ℕ := do
  let bytes ← Reader.take (.thrown "CDataStream::read(): end of data") width
  return leNat bytes

def writeUInt8 (n : UInt8) : Bytes := [n]

def readUInt8 : Reader Fault UInt8 := do
  let n ← readLE 1
  return UInt8.ofNat n

def writeUInt32 (n : UInt32) : Bytes := leBytes 4 n.toNat

def readUInt32 : Reader Fault UInt32 := do
  let n ← readLE 4
  return UInt32.ofNat n

def writeInt32 (n : Int32) : Bytes := writeUInt32 n.toUInt32

def readInt32 : Reader Fault Int32 := do
  let n ← readUInt32
  return n.toInt32

def writeInt64 (n : Int64) : Bytes := leBytes 8 n.toUInt64.toNat

def readInt64 : Reader Fault Int64 := do
  let n ← readLE 8
  return (UInt64.ofNat n).toInt64

/-- The bytes of a hash, as they lie in memory. -/
def writeUint256 (hash : uint256) : Bytes := leBytes 32 hash.toNat

def readUint256 : Reader Fault uint256 := do
  let n ← readLE 32
  return BitVec.ofNat 256 n

def writeCompactSize (nSize : ℕ) : Bytes :=
  if nSize < 253 then leBytes 1 nSize
  else if nSize ≤ 0xffff then leBytes 1 253 ++ leBytes 2 nSize
  else if nSize ≤ 0xffffffff then leBytes 1 254 ++ leBytes 4 nSize
  else leBytes 1 255 ++ leBytes 8 nSize

/-- A size in `width` bytes that must not fit the shorter formats. -/
def readWideSize (width least : ℕ) : Reader Fault ℕ := do
  let nSizeRet ← readLE width
  if nSizeRet < least then Reader.fail (.thrown "non-canonical ReadCompactSize()")
  else return nSizeRet

/-- The size announced by the first byte `chSize`. -/
def readSizeAfter (chSize : ℕ) : Reader Fault ℕ :=
  if chSize < 253 then return chSize
  else if chSize = 253 then readWideSize 2 253
  else if chSize = 254 then readWideSize 4 0x10000
  else readWideSize 8 0x100000000

def readCompactSize : Reader Fault ℕ := do
  let chSize ← readLE 1
  let nSizeRet ← readSizeAfter chSize
  if nSizeRet > MAX_SIZE then Reader.fail (.thrown "ReadCompactSize(): size too large")
  else return nSizeRet

section

variable {α : Type}

def writeVector (write : α → Bytes) (l : List α) : Bytes :=
  writeCompactSize l.length ++ l.flatMap write

def readVector (read : Reader Fault α) : Reader Fault (List α) := do
  let nSize ← readCompactSize
  Reader.replicate read nSize

def writeBytes (bytes : Bytes) : Bytes := writeCompactSize bytes.length ++ bytes

def readBytes : Reader Fault Bytes := do
  let nSize ← readCompactSize
  Reader.take (.thrown "CDataStream::read(): end of data") nSize

end

def writeTxIn (txin : CTxIn) : Bytes :=
  writeUint256 txin.prevout.hash ++ (writeUInt32 txin.prevout.n ++
    (writeBytes txin.scriptSig ++ writeUInt32 txin.nSequence))

def readTxIn : Reader Fault CTxIn := do
  let hash ← readUint256
  let n ← readUInt32
  let scriptSig ← readBytes
  let nSequence ← readUInt32
  return ⟨⟨hash, n⟩, scriptSig, nSequence, []⟩

def writeTxOut (txout : CTxOut) : Bytes :=
  writeInt64 txout.nValue ++ writeBytes txout.scriptPubKey

def readTxOut : Reader Fault CTxOut := do
  let nValue ← readInt64
  let scriptPubKey ← readBytes
  return ⟨nValue, scriptPubKey⟩

def CTransaction.hasWitness (tx : CTransaction) : Bool :=
  tx.vin.any fun txin => !txin.scriptWitness.isEmpty

/-- The inputs and outputs, after a marker and flags if there is a witness. -/
def writeInputsOutputs (fWitness : Bool) (tx : CTransaction) : Bytes :=
  if fWitness then
    writeVector writeTxIn [] ++ (writeUInt8 1 ++
      (writeVector writeTxIn tx.vin ++ writeVector writeTxOut tx.vout))
  else writeVector writeTxIn tx.vin ++ writeVector writeTxOut tx.vout

def writeWitness (fWitness : Bool) (vin : List CTxIn) : Bytes :=
  if fWitness then vin.flatMap fun txin => writeVector writeBytes txin.scriptWitness else []

def serializeTransaction (fAllowWitness : Bool) (tx : CTransaction) : Bytes :=
  let fWitness := fAllowWitness && tx.hasWitness
  writeInt32 tx.nVersion ++ (writeInputsOutputs fWitness tx ++
    (writeWitness fWitness tx.vin ++ writeUInt32 tx.nLockTime))

/-- What follows an empty `vin`: flags, and the inputs and outputs if any is
set. -/
def readExtended : Reader Fault (UInt8 × List CTxIn × List CTxOut) := do
  let flags ← readUInt8
  if flags = 0 then return (0, [], [])
  else do
    let vin ← readVector readTxIn
    let vout ← readVector readTxOut
    return (flags, vin, vout)

def readInputsOutputs (fAllowWitness : Bool) :
    Reader Fault (UInt8 × List CTxIn × List CTxOut) := do
  let vin ← readVector readTxIn
  if vin.isEmpty && fAllowWitness then readExtended
  else do
    let vout ← readVector readTxOut
    return (0, vin, vout)

def readStacks : List CTxIn → Reader Fault (List CTxIn)
  | [] => return []
  | txin :: vin => do
    let stack ← readVector readBytes
    let rest ← readStacks vin
    return { txin with scriptWitness := stack } :: rest

def readWitness (fWitness : Bool) (vin : List CTxIn) : Reader Fault (List CTxIn) :=
  if fWitness then readStacks vin else return vin

def checkFlags (flags : UInt8) : Reader Fault Unit :=
  if flags ≠ 0 then Reader.fail (.thrown "Unknown transaction optional data") else return ()

def unserializeTransaction (fAllowWitness : Bool) : Reader Fault CTransaction := do
  let nVersion ← readInt32
  let body ← readInputsOutputs fAllowWitness
  let fWitness := body.1 &&& 1 != 0 && fAllowWitness
  let vin ← readWitness fWitness body.2.1
  checkFlags (if fWitness then body.1 ^^^ 1 else body.1)
  let nLockTime ← readUInt32
  return ⟨nVersion, vin, body.2.2, nLockTime⟩

def CTransaction.getHash (hash : Bytes → uint256) (tx : CTransaction) : uint256 :=
  hash (serializeTransaction false tx)

theorem serializeTransaction_of_not_hasWitness {tx : CTransaction} (h : tx.hasWitness = false)
    (fAllowWitness : Bool) :
    serializeTransaction fAllowWitness tx =
      writeInt32 tx.nVersion ++ (writeVector writeTxIn tx.vin ++
        (writeVector writeTxOut tx.vout ++ writeUInt32 tx.nLockTime)) := by
  simp [serializeTransaction, h, writeInputsOutputs, writeWitness]

section

variable (width n : ℕ) (b : Bool)

theorem readLE_leBytes_mod : Reads (readLE width) (leBytes width n) (n % 256 ^ width) := by
  have h := (Reads.take (E := Fault) (.thrown "CDataStream::read(): end of data")
    (length_leBytes width n)).map leNat
  rwa [leNat_leBytes_mod] at h

theorem readLE_leBytes (hn : n < 256 ^ width) : Reads (readLE width) (leBytes width n) n := by
  have h := readLE_leBytes_mod width n
  rwa [Nat.mod_eq_of_lt hn] at h

theorem readUInt8_write (n : UInt8) : Reads readUInt8 (writeUInt8 n) n := by
  have h := (readLE_leBytes 1 n.toNat n.toNat_lt).map UInt8.ofNat
  have hbytes : leBytes 1 n.toNat = writeUInt8 n := by simp [leBytes, writeUInt8]
  rwa [UInt8.ofNat_toNat, hbytes] at h

theorem readUInt32_write (n : UInt32) : Reads readUInt32 (writeUInt32 n) n := by
  have h := (readLE_leBytes 4 n.toNat n.toNat_lt).map UInt32.ofNat
  rwa [UInt32.ofNat_toNat] at h

theorem readInt32_write (n : Int32) : Reads readInt32 (writeInt32 n) n :=
  (readUInt32_write n.toUInt32).map UInt32.toInt32

theorem readInt64_write (n : Int64) : Reads readInt64 (writeInt64 n) n := by
  have h := (readLE_leBytes 8 n.toUInt64.toNat n.toUInt64.toNat_lt).map
    fun n => (UInt64.ofNat n).toInt64
  rwa [UInt64.ofNat_toNat] at h

theorem readUint256_write (hash : uint256) : Reads readUint256 (writeUint256 hash) hash := by
  have h := (readLE_leBytes 32 hash.toNat hash.isLt).map (BitVec.ofNat 256)
  rwa [BitVec.ofNat_toNat, BitVec.setWidth_eq] at h

theorem writeUint256_injective : Function.Injective writeUint256 := by
  intro x y h
  have hx : leNat (writeUint256 x) = x.toNat := leNat_leBytes x.isLt
  have hy : leNat (writeUint256 y) = y.toNat := leNat_leBytes y.isLt
  apply BitVec.eq_of_toNat_eq
  rw [← hx, h, hy]

theorem readWideSize_write {width n : ℕ} (least : ℕ) (hn : n < 256 ^ width) :
    Inverts (readWideSize width least) (leBytes width n) n :=
  (readLE_leBytes width n hn).inverts.guard (.inr rfl)

theorem readCompactSize_of {first bytes : Bytes} {chSize n m : ℕ}
    (hfirst : Inverts (readLE 1) first chSize) (hafter : Inverts (readSizeAfter chSize) bytes n)
    (hm : n > MAX_SIZE ∨ n = m) : Inverts readCompactSize (first ++ bytes) m :=
  hfirst.bind (hafter.guard hm)

theorem readCompactSize_inverts {nSize m : ℕ} (hm : nSize > MAX_SIZE ∨ nSize = m) :
    Inverts readCompactSize (writeCompactSize nSize) m := by
  have hmarker (n : ℕ) (hn : n < 256) : Inverts (readLE 1) (leBytes 1 n) n :=
    (readLE_leBytes 1 n hn).inverts
  unfold writeCompactSize
  split_ifs with h1 h2 h4
  · have h := readCompactSize_of (hmarker nSize (by omega)) (n := nSize)
      (by rw [readSizeAfter, if_pos h1]; exact Inverts.pure_nil nSize) hm
    rwa [append_nil] at h
  · exact readCompactSize_of (hmarker 253 (by decide)) (readWideSize_write 253 (by omega)) hm
  · exact readCompactSize_of (hmarker 254 (by decide)) (readWideSize_write 0x10000 (by omega)) hm
  · -- eight bytes hold a size beyond the limit, or one that fits a shorter format
    obtain ⟨k, hk, hbig⟩ : ∃ k, (nSize % 256 ^ 8 < 0x100000000 ∨ nSize % 256 ^ 8 = k) ∧
        k > MAX_SIZE := by
      by_cases hlow : nSize % 256 ^ 8 < 0x100000000
      · exact ⟨MAX_SIZE + 1, .inl hlow, Nat.lt_succ_self _⟩
      · exact ⟨_, .inr rfl, lt_of_lt_of_le (by decide) (not_lt.1 hlow)⟩
    have hwide : Inverts (readWideSize 8 0x100000000) (leBytes 8 nSize) k :=
      (readLE_leBytes_mod 8 nSize).inverts.guard hk
    have hsize : readSizeAfter 255 = readWideSize 8 0x100000000 := by simp [readSizeAfter]
    rw [← hsize] at hwide
    exact readCompactSize_of (hmarker 255 (by decide)) hwide (.inl hbig)

theorem readCompactSize_write (nSize : ℕ) :
    Inverts readCompactSize (writeCompactSize nSize) nSize :=
  readCompactSize_inverts (.inr rfl)

/-- `vin` as it is read back from the inputs alone. -/
def stripWitness (vin : List CTxIn) : List CTxIn :=
  vin.map fun txin => { txin with scriptWitness := [] }

variable {tx : CTransaction}

theorem stripWitness_eq_self (h : tx.hasWitness = false) : stripWitness tx.vin = tx.vin := by
  refine map_congr_left (g := id) (fun txin hmem => ?_) |>.trans (map_id _)
  have hnil : txin.scriptWitness = [] := by simpa using any_eq_false.1 h txin hmem
  rw [← hnil]
  rfl

theorem witnessFlag_isSet : ((if b then (1 : UInt8) else 0) &&& 1 != 0) = b := by
  cases b <;> decide

theorem witnessFlag_cleared :
    (if b then (if b then (1 : UInt8) else 0) ^^^ 1 else if b then 1 else 0) = 0 := by
  cases b <;> decide

end

section

theorem readCompactSize_reads_of {first bytes : Bytes} {chSize n : ℕ}
    (hfirst : Reads (readLE 1) first chSize) (hafter : Reads (readSizeAfter chSize) bytes n)
    (hn : n ≤ MAX_SIZE) : Reads readCompactSize (first ++ bytes) n :=
  hfirst.bind (hafter.guard (Nat.not_lt.2 hn))

variable {bytes : Bytes} {nSize : ℕ} {tx : CTransaction}

theorem readCompactSize_reads (hle : nSize ≤ MAX_SIZE) :
    Reads readCompactSize (writeCompactSize nSize) nSize := by
  have hmarker (n : ℕ) (hn : n < 256) : Reads (readLE 1) (leBytes 1 n) n := readLE_leBytes 1 n hn
  have hwide (width least : ℕ) (hleast : least ≤ nSize) (hn : nSize < 256 ^ width) :
      Reads (readWideSize width least) (leBytes width nSize) nSize :=
    (readLE_leBytes width nSize hn).guard (Nat.not_lt.2 hleast)
  have hlimit : nSize ≤ 0x02000000 := hle
  unfold writeCompactSize
  split_ifs with h1 h2 h4
  · have h := readCompactSize_reads_of (hmarker nSize (by omega)) (n := nSize)
      (by rw [readSizeAfter, if_pos h1]; exact Reads.pure_nil nSize) hle
    rwa [append_nil] at h
  · exact readCompactSize_reads_of (hmarker 253 (by decide)) (hwide 2 253 (by omega) (by omega)) hle
  · exact readCompactSize_reads_of (hmarker 254 (by decide))
      (hwide 4 0x10000 (by omega) (by omega)) hle
  · omega

theorem readCompactSize_refuses (hlt : MAX_SIZE < nSize) :
    Refuses readCompactSize (writeCompactSize nSize) :=
  .of_inverts (readCompactSize_inverts (.inl hlt)) (readCompactSize_inverts (.inl hlt))
    Nat.zero_ne_one

theorem readBytes_refuses (hlt : MAX_SIZE < bytes.length) : Refuses readBytes (writeBytes bytes) :=
  ((readCompactSize_refuses hlt).bind _).append bytes

theorem readVector_refuses {α β : Type} {read : Reader Fault β} {write : α → Bytes} {l : List α}
    (hlt : MAX_SIZE < l.length) : Refuses (readVector read) (writeVector write l) :=
  ((readCompactSize_refuses hlt).bind _).append _

/-- The numbers of inputs and outputs and the lengths of their scripts are within what
a reader takes. -/
structure CTransaction.WithinLimits (tx : CTransaction) : Prop where
  vin : tx.vin.length ≤ MAX_SIZE
  vout : tx.vout.length ≤ MAX_SIZE
  scriptSig : ∀ txin ∈ tx.vin, txin.scriptSig.length ≤ MAX_SIZE
  scriptPubKey : ∀ txout ∈ tx.vout, txout.scriptPubKey.length ≤ MAX_SIZE

/-- So are the witness stacks and what is on them. -/
structure CTransaction.WitnessWithinLimits (tx : CTransaction) : Prop where
  stack : ∀ txin ∈ tx.vin, txin.scriptWitness.length ≤ MAX_SIZE
  item : ∀ txin ∈ tx.vin, ∀ bytes ∈ txin.scriptWitness, bytes.length ≤ MAX_SIZE

theorem CTransaction.witnessWithinLimits_of_not_hasWitness
    (h : tx.hasWitness = false) : tx.WitnessWithinLimits := by
  have hnil : ∀ txin ∈ tx.vin, txin.scriptWitness = [] := fun txin hmem => by
    simpa using any_eq_false.1 h txin hmem
  refine ⟨fun txin hmem => ?_, fun txin hmem bytes hbytes => ?_⟩
  · rw [hnil txin hmem]
    exact Nat.zero_le _
  · rw [hnil txin hmem] at hbytes
    exact absurd hbytes not_mem_nil

section

variable {p : Prop} {vin : List CTxIn}

theorem readCompactSize_readsIf (hle : p → nSize ≤ MAX_SIZE) :
    ReadsIf p readCompactSize (writeCompactSize nSize) nSize :=
  ⟨fun h => readCompactSize_reads (hle h), readCompactSize_write nSize⟩

theorem readBytes_readsIf (hle : p → bytes.length ≤ MAX_SIZE) :
    ReadsIf p readBytes (writeBytes bytes) bytes :=
  (readCompactSize_readsIf hle).bind (Reads.take _ rfl).readsIf

theorem readVector_readsIf {α β : Type} {read : Reader Fault β} {write : α → Bytes} {f : α → β}
    {l : List α} (hlen : p → l.length ≤ MAX_SIZE)
    (hread : ∀ a ∈ l, ReadsIf p read (write a) (f a)) :
    ReadsIf p (readVector read) (writeVector write l) (l.map f) :=
  (readCompactSize_readsIf hlen).bind (ReadsIf.replicate hread)

theorem readTxIn_readsIf (hscript : p → txin.scriptSig.length ≤ MAX_SIZE) :
    ReadsIf p readTxIn (writeTxIn txin) { txin with scriptWitness := [] } :=
  (readUint256_write txin.prevout.hash).readsIf.bind <|
    (readUInt32_write txin.prevout.n).readsIf.bind <|
      (readBytes_readsIf hscript).bind <| (readUInt32_write txin.nSequence).readsIf.map _

theorem readTxOut_readsIf (hscript : p → txout.scriptPubKey.length ≤ MAX_SIZE) :
    ReadsIf p readTxOut (writeTxOut txout) txout :=
  (readInt64_write txout.nValue).readsIf.bind <| (readBytes_readsIf hscript).map _

theorem readInputs_readsIf (hlen : p → vin.length ≤ MAX_SIZE)
    (hscript : ∀ txin ∈ vin, p → txin.scriptSig.length ≤ MAX_SIZE) :
    ReadsIf p (readVector readTxIn) (writeVector writeTxIn vin) (stripWitness vin) :=
  readVector_readsIf hlen fun txin hmem => readTxIn_readsIf (hscript txin hmem)

theorem readInputsOutputs_readsIf (hvin : tx.vin ≠ []) (h : p → tx.WithinLimits)
    (fWitness : Bool) :
    ReadsIf p (readInputsOutputs true) (writeInputsOutputs fWitness tx)
      (if fWitness then 1 else 0, stripWitness tx.vin, tx.vout) := by
  have hinputs : ReadsIf p (readVector readTxIn) (writeVector writeTxIn tx.vin)
      (stripWitness tx.vin) :=
    readInputs_readsIf (fun hp => (h hp).vin) fun txin hmem hp => (h hp).scriptSig txin hmem
  have houtputs := readVector_readsIf (f := id) (fun hp => (h hp).vout) fun txout hmem =>
    readTxOut_readsIf fun hp => (h hp).scriptPubKey txout hmem
  rw [map_id] at houtputs
  cases fWitness with
  | true =>
    have hmarker : ReadsIf p (readVector readTxIn) (writeVector writeTxIn []) [] :=
      readInputs_readsIf (fun _ => Nat.zero_le _) fun _ hmem => absurd hmem not_mem_nil
    exact hmarker.bind ((readUInt8_write 1).readsIf.bind (hinputs.bind (houtputs.map _)))
  | false =>
    refine hinputs.bind ?_
    rw [if_neg (by simpa [stripWitness] using hvin)]
    exact houtputs.map _

theorem readStacks_readsIf (hstack : ∀ txin ∈ vin, p → txin.scriptWitness.length ≤ MAX_SIZE)
    (hitem : ∀ txin ∈ vin, ∀ bytes ∈ txin.scriptWitness, p → bytes.length ≤ MAX_SIZE) :
    ReadsIf p (readStacks (stripWitness vin))
      (vin.flatMap fun txin => writeVector writeBytes txin.scriptWitness) vin := by
  induction vin with
  | nil => exact (Reads.pure_nil []).readsIf
  | cons txin vin ih =>
    have hfirst := readVector_readsIf (f := id) (hstack txin mem_cons_self)
      fun bytes hbytes => readBytes_readsIf (hitem txin mem_cons_self bytes hbytes)
    rw [map_id] at hfirst
    have hrest := ih (fun txin hmem => hstack txin (mem_cons_of_mem _ hmem))
      fun txin hmem => hitem txin (mem_cons_of_mem _ hmem)
    exact hfirst.bind (hrest.map _)

theorem readWitness_readsIf (h : p → tx.WitnessWithinLimits) :
    ReadsIf p (readWitness tx.hasWitness (stripWitness tx.vin))
      (writeWitness tx.hasWitness tx.vin) tx.vin := by
  cases hwit : tx.hasWitness with
  | true =>
    exact readStacks_readsIf (fun txin hmem hp => (h hp).stack txin hmem)
      fun txin hmem bytes hbytes hp => (h hp).item txin hmem bytes hbytes
  | false =>
    rw [stripWitness_eq_self hwit]
    exact (Reads.pure_nil tx.vin).readsIf

/-- A transaction is read back within the limits, and nothing else is read outside them. -/
theorem unserializeTransaction_readsIf (hvin : tx.vin ≠ []) (h : p → tx.WithinLimits)
    (hwit : p → tx.WitnessWithinLimits) :
    ReadsIf p (unserializeTransaction true) (serializeTransaction true tx) tx := by
  refine (readInt32_write tx.nVersion).readsIf.bind ((readInputsOutputs_readsIf hvin h _).bind ?_)
  simp only [Bool.true_and, Bool.and_true, witnessFlag_isSet, witnessFlag_cleared]
  exact (readWitness_readsIf hwit).bind
    (ReadsIf.bind (Reads.pure_nil ()).readsIf ((readUInt32_write tx.nLockTime).readsIf.map _))

end

theorem readBytes_reads (hle : bytes.length ≤ MAX_SIZE) :
    Reads readBytes (writeBytes bytes) bytes :=
  (readBytes_readsIf fun _ => hle).reads trivial

theorem readVector_reads {α β : Type} {read : Reader Fault β} {write : α → Bytes} {f : α → β}
    {l : List α} (hlen : l.length ≤ MAX_SIZE) (hread : ∀ a ∈ l, Reads read (write a) (f a)) :
    Reads (readVector read) (writeVector write l) (l.map f) :=
  (readVector_readsIf (fun _ => hlen) fun a ha => (hread a ha).readsIf).reads trivial

theorem unserializeTransaction_reads (hvin : tx.vin ≠ [])
    (h : tx.WithinLimits) (hwit : tx.WitnessWithinLimits) :
    Reads (unserializeTransaction true) (serializeTransaction true tx) tx :=
  (unserializeTransaction_readsIf hvin (fun _ => h) fun _ => hwit).reads trivial

theorem readInputs_write (vin : List CTxIn) :
    Inverts (readVector readTxIn) (writeVector writeTxIn vin) (stripWitness vin) :=
  (readInputs_readsIf (p := False) nofun nofun).inverts

theorem unserializeTransaction_serialize (hvin : tx.vin ≠ []) :
    Inverts (unserializeTransaction true) (serializeTransaction true tx) tx :=
  (unserializeTransaction_readsIf (p := False) hvin nofun nofun).inverts

end

end Coinyecoin
