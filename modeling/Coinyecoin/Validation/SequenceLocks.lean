import Coinyecoin.Chain.ThresholdRuns
import Coinyecoin.Primitives.Transaction

/-!
# Relative lock times

The sequence locks of a transaction that waits for the next block, and the lock
points that an entry of the memory pool keeps of them: the last height and time
at which the transaction is not final, and the highest block that an input was
confirmed in. While that block is in the active chain the lock points are used
in place of a new calculation.
-/

namespace Coinyecoin

open Foundation CBlockIndex BlockTree List Option

variable {height : ℤ} {input : CTxIn × ℤ}

def SEQUENCE_LOCKTIME_DISABLE_FLAG : UInt32 := 0x80000000

def SEQUENCE_LOCKTIME_TYPE_FLAG : UInt32 := 0x400000

def SEQUENCE_LOCKTIME_MASK : UInt32 := 0xffff

def SEQUENCE_LOCKTIME_GRANULARITY : UInt32 := 9

def LOCKTIME_VERIFY_SEQUENCE : Int32 := 1

namespace CTxIn

variable (txin : CTxIn)

def lockDisabled : Bool := txin.nSequence &&& SEQUENCE_LOCKTIME_DISABLE_FLAG != 0

def lockByTime : Bool := txin.nSequence &&& SEQUENCE_LOCKTIME_TYPE_FLAG != 0

def lockHeight : ℤ := (txin.nSequence &&& SEQUENCE_LOCKTIME_MASK).toNat

def lockTime : ℤ :=
  ((txin.nSequence &&& SEQUENCE_LOCKTIME_MASK) <<< SEQUENCE_LOCKTIME_GRANULARITY).toNat

end CTxIn

structure LockPoints (Ptr : Type) where
  height : ℤ
  time : ℤ
  maxInputBlock : Option Ptr

/-- The active chain by its tip, the heights of the coins of `pcoinsTip` and the transactions of
the pool. -/
structure ChainView {Ptr : Type} (T : BlockTree Ptr) where
  tip : Ptr
  coins : uint256 → Option ℕ
  inPool : uint256 → Bool
  coins_le : ∀ hash n, coins hash = some n → n ≤ (T.index tip).nHeight

section

variable {Ptr : Type} {T : BlockTree Ptr}

/-- The height of an input as `CheckSequenceLocks` takes it from `CCoinsViewMemPool`: what is in
the pool is taken to be in the next block. -/
def ChainView.prevHeight (view : ChainView T) (hash : uint256) : Option ℤ :=
  if view.inPool hash then some ((T.index view.tip).nHeight + 1)
  else (view.coins hash).map Int.ofNat

/-- The inputs with their heights, if none is missing. -/
def ChainView.prevheights (view : ChainView T) : List CTxIn → Option (List (CTxIn × ℤ))
  | [] => some []
  | txin :: vin =>
    match view.prevHeight txin.prevout.hash with
    | none => none
    | some height => (view.prevheights vin).map ((txin, height) :: ·)

variable (T)

def ancestorTime (tip : Ptr) (height : ℤ) : Except Fault ℤ := do
  match ← getAncestor T.index tip height with
  | none => .error .nullDereference
  | some p => return getMedianTimePast T p

/-- One round of `CalculateSequenceLocks`, from the last invalid height and time so far. -/
def lockInput (tip : Ptr) (lockPair : ℤ × ℤ) (input : CTxIn × ℤ) : Except Fault (ℤ × ℤ) :=
  if input.1.lockDisabled then .ok lockPair
  else if input.1.lockByTime then do
    let nCoinTime ← ancestorTime T tip (max (input.2 - 1) 0)
    return (lockPair.1, max lockPair.2 (nCoinTime + input.1.lockTime - 1))
  else .ok (max lockPair.1 (input.2 + input.1.lockHeight - 1), lockPair.2)

def enforceBIP68 (tx : CTransaction) (flags : Int32) : Bool :=
  tx.nVersion.toUInt32 ≥ 2 && flags &&& LOCKTIME_VERIFY_SEQUENCE != 0

/-- `CalculateSequenceLocks` for the block after the tip: the lock pair, and the heights with
those reset that do not matter. -/
def calculateSequenceLocks (tip : Ptr) (tx : CTransaction) (flags : Int32)
    (inputs : List (CTxIn × ℤ)) : Except Fault ((ℤ × ℤ) × List ℤ) :=
  if enforceBIP68 tx flags then do
    let lockPair ← inputs.foldlM (lockInput T tip) (-1, -1)
    return (lockPair, inputs.map fun input => if input.1.lockDisabled then 0 else input.2)
  else .ok ((-1, -1), inputs.map Prod.snd)

/-- `EvaluateSequenceLocks` for the block after the tip. -/
def evaluateSequenceLocks (tip : Ptr) (lockPair : ℤ × ℤ) : Bool :=
  !(lockPair.1 ≥ (T.index tip).nHeight + 1 || lockPair.2 ≥ getMedianTimePast T tip)

/-- One more input that may be the highest; those in the pool do not count. -/
def higherInput (tip : Ptr) (highest height : ℤ) : ℤ :=
  if height ≠ (T.index tip).nHeight + 1 then max highest height else highest

def maxInputHeight (tip : Ptr) (heights : List ℤ) : ℤ := heights.foldl (higherInput T tip) 0

variable {T}

/-- `CheckSequenceLocks`: the answer and the lock points it leaves. -/
def checkSequenceLocks (view : ChainView T) (tx : CTransaction) (flags : Int32)
    (lp : LockPoints Ptr) (useExistingLockPoints : Bool) : Except Fault (Bool × LockPoints Ptr) :=
  if useExistingLockPoints then
    .ok (evaluateSequenceLocks T view.tip (lp.height, lp.time), lp)
  else
    match view.prevheights tx.vin with
    | none => .ok (false, lp)
    | some inputs => do
      let (lockPair, heights) ← calculateSequenceLocks T view.tip tx flags inputs
      let maxInputBlock ← getAncestor T.index view.tip (maxInputHeight T view.tip heights)
      return (evaluateSequenceLocks T view.tip lockPair,
        ⟨lockPair.1, lockPair.2, maxInputBlock⟩)

def testLockPointValidity [DecidableEq Ptr] (view : ChainView T) (lp : LockPoints Ptr) : Bool :=
  match lp.maxInputBlock with
  | none => true
  | some b => ancestorAt T.index view.tip (T.index b).nHeight == some b

section

/-- An input does not hold the transaction back at a height and a time. -/
def Within (T : BlockTree Ptr) (tip : Ptr) (height time : ℤ) (input : CTxIn × ℤ) : Prop :=
  input.1.lockDisabled = false →
    (input.1.lockByTime = true → ∀ p, ancestorAt T.index tip (max (input.2 - 1) 0) = some p →
      getMedianTimePast T p + input.1.lockTime - 1 < time) ∧
    (input.1.lockByTime = false → input.2 + input.1.lockHeight - 1 < height)

theorem exists_ancestorAt (p : Ptr) (h₀ : 0 ≤ height) (h : height ≤ (T.index p).nHeight) :
    ∃ q, ancestorAt T.index p height = some q ∧ IsAncestor T.index p q ∧
      ((T.index q).nHeight : ℤ) = height := by
  obtain ⟨q, -, hanc, hheight⟩ := T.getAncestor_spec p height h₀ h
  exact ⟨q, ancestorAt_eq_some.2 ⟨hanc, hheight⟩, hanc, hheight⟩

variable {tip : Ptr}

theorem lockInput_spec (hinput : input.2 ≤ (T.index tip).nHeight + 1) (lockPair : ℤ × ℤ) :
    ∃ after, lockInput T tip lockPair input = .ok after ∧
      ∀ height time, (after.1 < height ∧ after.2 < time) ↔
        (lockPair.1 < height ∧ lockPair.2 < time) ∧ Within T tip height time input := by
  rw [lockInput]
  cases hdisabled : input.1.lockDisabled with
  | true =>
    refine ⟨lockPair, rfl, fun height time => ?_⟩
    simp [Within, hdisabled]
  | false =>
    cases htime : input.1.lockByTime with
    | true =>
      obtain ⟨p, hp, -⟩ := exists_ancestorAt (T := T) tip
        (show 0 ≤ max (input.2 - 1) 0 by omega) (by omega)
      refine ⟨(lockPair.1, max lockPair.2 (getMedianTimePast T p + input.1.lockTime - 1)), ?_,
        fun height time => ?_⟩
      · rw [if_neg (by simp), if_pos rfl, ancestorTime, T.getAncestor_eq, hp]
        rfl
      · simp [Within, hdisabled, htime, hp, and_assoc]
    | false =>
      refine ⟨(max lockPair.1 (input.2 + input.1.lockHeight - 1), lockPair.2), ?_,
        fun height time => ?_⟩
      · rw [if_neg (by simp), if_neg (by simp)]
      · simp only [Within, hdisabled, htime, max_lt_iff, forall_const, Bool.false_eq_true,
          false_imp_iff, true_and]
        exact and_right_comm

theorem lockInputs_spec {inputs : List (CTxIn × ℤ)}
    (hinputs : ∀ input ∈ inputs, input.2 ≤ (T.index tip).nHeight + 1) (lockPair : ℤ × ℤ) :
    ∃ after, inputs.foldlM (lockInput T tip) lockPair = .ok after ∧
      ∀ height time, (after.1 < height ∧ after.2 < time) ↔
        (lockPair.1 < height ∧ lockPair.2 < time) ∧
          ∀ input ∈ inputs, Within T tip height time input := by
  induction inputs generalizing lockPair with
  | nil => exact ⟨lockPair, rfl, fun height time => by simp⟩
  | cons input inputs ih =>
    obtain ⟨hinput, hinputs⟩ := forall_mem_cons.1 hinputs
    obtain ⟨next, hnext, hfirst⟩ := lockInput_spec hinput lockPair
    obtain ⟨after, hafter, hrest⟩ := ih hinputs next
    refine ⟨after, ?_, fun height time => ?_⟩
    · rw [foldlM_cons, hnext, ok_bind, hafter]
    · rw [hrest, hfirst, forall_mem_cons, and_assoc]

theorem evaluateSequenceLocks_iff {lockPair : ℤ × ℤ} :
    evaluateSequenceLocks T tip lockPair = true ↔
      lockPair.1 < (T.index tip).nHeight + 1 ∧ lockPair.2 < getMedianTimePast T tip := by
  simp [evaluateSequenceLocks]

theorem maxInputHeight_spec {heights : List ℤ}
    (hheights : ∀ height ∈ heights, height ≤ (T.index tip).nHeight + 1) :
    0 ≤ maxInputHeight T tip heights ∧ maxInputHeight T tip heights ≤ (T.index tip).nHeight ∧
      ∀ height ∈ heights, height ≠ (T.index tip).nHeight + 1 →
        height ≤ maxInputHeight T tip heights := by
  have hfold : ∀ start : ℤ, 0 ≤ start → start ≤ (T.index tip).nHeight →
      start ≤ heights.foldl (higherInput T tip) start ∧
      heights.foldl (higherInput T tip) start ≤ (T.index tip).nHeight ∧
      ∀ height ∈ heights, height ≠ (T.index tip).nHeight + 1 →
        height ≤ heights.foldl (higherInput T tip) start := by
    induction heights with
    | nil => exact fun start _ hle => ⟨le_refl start, hle, by simp⟩
    | cons height heights ih =>
      intro start h₀ hle
      obtain ⟨hheight, hheights⟩ := forall_mem_cons.1 hheights
      rw [foldl_cons, higherInput]
      split_ifs with hpool
      · obtain ⟨hstart, htop, hmem⟩ := ih hheights (max start height) (by omega) (by omega)
        refine ⟨by omega, htop, forall_mem_cons.2 ⟨fun _ => by omega, hmem⟩⟩
      · obtain ⟨hstart, htop, hmem⟩ := ih hheights start h₀ hle
        exact ⟨hstart, htop, forall_mem_cons.2 ⟨fun h => absurd h hpool, hmem⟩⟩
  obtain ⟨hstart, htop, hmem⟩ := hfold 0 (le_refl 0) (Int.natCast_nonneg _)
  exact ⟨hstart, htop, hmem⟩

end

section

variable (view : ChainView T)

theorem ChainView.prevHeight_le {hash : uint256}
    (h : view.prevHeight hash = some height) : height ≤ (T.index view.tip).nHeight + 1 := by
  rw [prevHeight] at h
  split_ifs at h
  · exact (some_inj.1 h).ge
  · obtain ⟨n, hn, rfl⟩ := map_eq_some_iff.1 h
    have := view.coins_le hash n hn
    exact Int.ofNat_le.2 (by omega)

variable {vin : List CTxIn} {inputs : List (CTxIn × ℤ)}

theorem ChainView.mem_prevheights (h : view.prevheights vin = some inputs) (input : CTxIn × ℤ) :
    input ∈ inputs ↔ input.1 ∈ vin ∧ view.prevHeight input.1.prevout.hash = some input.2 := by
  induction vin generalizing inputs with
  | nil =>
    cases h
    simp
  | cons txin vin ih =>
    rw [prevheights] at h
    cases hheight : view.prevHeight txin.prevout.hash with
    | none =>
      rw [hheight] at h
      cases h
    | some height =>
      rw [hheight] at h
      obtain ⟨rest, hrest, rfl⟩ := map_eq_some_iff.1 h
      rw [mem_cons, ih hrest, mem_cons]
      constructor
      · rintro (rfl | ⟨hmem, hsome⟩)
        · exact ⟨.inl rfl, hheight⟩
        · exact ⟨.inr hmem, hsome⟩
      · rintro ⟨heq | hmem, hsome⟩
        · rw [heq, hheight] at hsome
          exact .inl (Prod.ext heq (some_inj.1 hsome).symm)
        · exact .inr ⟨hmem, hsome⟩

theorem ChainView.prevHeight_of_prevheights
    (h : view.prevheights vin = some inputs) {txin : CTxIn} (hmem : txin ∈ vin) :
    ∃ height, view.prevHeight txin.prevout.hash = some height := by
  induction vin generalizing inputs with
  | nil => cases hmem
  | cons first vin ih =>
    rw [prevheights] at h
    cases hfirst : view.prevHeight first.prevout.hash with
    | none =>
      rw [hfirst] at h
      cases h
    | some height =>
      rw [hfirst] at h
      obtain ⟨rest, hrest, -⟩ := map_eq_some_iff.1 h
      rcases mem_cons.1 hmem with rfl | hmem
      · exact ⟨height, hfirst⟩
      · exact ih hrest hmem

theorem ChainView.prevheights_returns (h : ∀ txin ∈ vin, view.prevHeight txin.prevout.hash ≠ none) :
    ∃ inputs, view.prevheights vin = some inputs := by
  induction vin with
  | nil => exact ⟨[], rfl⟩
  | cons txin vin ih =>
    obtain ⟨hfirst, hrest⟩ := forall_mem_cons.1 h
    obtain ⟨height, hheight⟩ := ne_none_iff_exists'.1 hfirst
    obtain ⟨inputs, hinputs⟩ := ih hrest
    exact ⟨(txin, height) :: inputs, by rw [prevheights, hheight, hinputs]; rfl⟩

end

section

/-- What the views of two active chains have in common: a coin that was confirmed in a block of
both is found in the second with that height, if it is found at all. -/
def SharedCoins (before now : ChainView T) : Prop :=
  ∀ b, IsAncestor T.index before.tip b → IsAncestor T.index now.tip b →
    ∀ hash n height, before.inPool hash = false → before.coins hash = some n →
      n ≤ (T.index b).nHeight → now.prevHeight hash = some height → height = n

variable {tx : CTransaction} {flags : Int32}

theorem checkSequenceLocks_stored {view : ChainView T}
    {lp lp' : LockPoints Ptr} (henforce : enforceBIP68 tx flags = true)
    (h : checkSequenceLocks view tx flags lp false = .ok (true, lp')) :
    ∃ inputs b, view.prevheights tx.vin = some inputs ∧ lp'.maxInputBlock = some b ∧
      IsAncestor T.index view.tip b ∧
      (∀ input ∈ inputs, input.1.lockDisabled = false →
        input.2 ≠ (T.index view.tip).nHeight + 1 → input.2 ≤ (T.index b).nHeight) ∧
      (∀ height time, lp'.height < height ∧ lp'.time < time →
        ∀ input ∈ inputs, Within T view.tip height time input) ∧
      lp'.height < (T.index view.tip).nHeight + 1 ∧ lp'.time < getMedianTimePast T view.tip := by
  rw [checkSequenceLocks, if_neg (by simp)] at h
  cases hinputs : view.prevheights tx.vin with
  | none =>
    rw [hinputs] at h
    cases h
  | some inputs =>
    have hle : ∀ input ∈ inputs, input.2 ≤ (T.index view.tip).nHeight + 1 := fun input hmem =>
      view.prevHeight_le ((view.mem_prevheights hinputs input).1 hmem).2
    obtain ⟨lockPair, hlocks, hwithin⟩ := lockInputs_spec hle (-1, -1)
    have hheights : ∀ height : ℤ,
        height ∈ inputs.map (fun input => if input.1.lockDisabled then 0 else input.2) →
          height ≤ (T.index view.tip).nHeight + 1 := by
      intro height hmem
      obtain ⟨input, hinput, rfl⟩ := mem_map.1 hmem
      have := hle input hinput
      split_ifs <;> omega
    obtain ⟨h₀, htop, hmax⟩ := maxInputHeight_spec hheights
    obtain ⟨b, hb, hanc, hheight⟩ := exists_ancestorAt view.tip h₀ htop
    rw [hinputs] at h
    dsimp only at h
    rw [calculateSequenceLocks, if_pos henforce, hlocks, ok_bind] at h
    dsimp only [pure, Except.pure] at h
    rw [ok_bind] at h
    dsimp only at h
    rw [T.getAncestor_eq, hb, ok_bind] at h
    obtain ⟨heval, rfl⟩ := Prod.mk.inj (Except.ok.inj h)
    rw [evaluateSequenceLocks_iff] at heval
    refine ⟨inputs, b, rfl, rfl, hanc, fun input hmem hdisabled hpool => ?_,
      fun height time hlt => ((hwithin height time).1 hlt).2, heval⟩
    rw [hheight]
    refine hmax input.2 (mem_map.2 ⟨input, hmem, ?_⟩) hpool
    rw [hdisabled]
    rfl

theorem checkSequenceLocks_passes {view : ChainView T}
    (lp : LockPoints Ptr) {inputs : List (CTxIn × ℤ)}
    (hinputs : view.prevheights tx.vin = some inputs)
    (h : enforceBIP68 tx flags = true → ∀ input ∈ inputs,
      Within T view.tip ((T.index view.tip).nHeight + 1) (getMedianTimePast T view.tip) input) :
    ∃ lp', checkSequenceLocks view tx flags lp false = .ok (true, lp') := by
  have hle : ∀ input ∈ inputs, input.2 ≤ (T.index view.tip).nHeight + 1 := fun input hmem =>
    view.prevHeight_le ((view.mem_prevheights hinputs input).1 hmem).2
  have hfree : (-1 : ℤ) < (T.index view.tip).nHeight + 1 ∧ -1 < getMedianTimePast T view.tip := by
    have := getMedianTimePast_nonneg T view.tip
    omega
  have hcalculated : ∃ lockPair heights,
      calculateSequenceLocks T view.tip tx flags inputs = .ok (lockPair, heights) ∧
        evaluateSequenceLocks T view.tip lockPair = true := by
    rw [calculateSequenceLocks]
    split_ifs with henforce
    · obtain ⟨lockPair, hlocks, hwithin⟩ := lockInputs_spec hle (-1, -1)
      refine ⟨lockPair, _, by rw [hlocks, ok_bind]; rfl, ?_⟩
      exact evaluateSequenceLocks_iff.2 ((hwithin _ _).2 ⟨hfree, h henforce⟩)
    · exact ⟨(-1, -1), _, rfl, evaluateSequenceLocks_iff.2 hfree⟩
  obtain ⟨lockPair, heights, hlocks, heval⟩ := hcalculated
  refine ⟨⟨lockPair.1, lockPair.2, ancestorAt T.index view.tip
    (maxInputHeight T view.tip heights)⟩, ?_⟩
  rw [checkSequenceLocks, if_neg (by simp), hinputs]
  dsimp only
  rw [hlocks, ok_bind]
  dsimp only
  rw [T.getAncestor_eq, ok_bind, heval]
  rfl

theorem within_of_pool {before now : Ptr} (hmtp : MedianTimesOrdered T now) {txin : CTxIn}
    (hheight : height ≤ (T.index now).nHeight + 1)
    (h : Within T before ((T.index before).nHeight + 1) (getMedianTimePast T before)
      (txin, (T.index before).nHeight + 1)) :
    Within T now ((T.index now).nHeight + 1) (getMedianTimePast T now) (txin, height) := by
  intro hdisabled
  obtain ⟨htimes, hheights⟩ := h hdisabled
  refine ⟨fun htime p hp => ?_, fun htime => ?_⟩
  · obtain ⟨q, hq, hanc, -⟩ := exists_ancestorAt (T := T) now
      (show 0 ≤ max (height - 1) 0 by omega) (by omega)
    obtain rfl : q = p := some_inj.1 (hq.symm.trans hp)
    have hself : ancestorAt T.index before (max ((T.index before).nHeight + 1 - 1) 0) =
        some before := by
      rw [add_sub_cancel_right, max_eq_left (Int.natCast_nonneg _)]
      exact ancestorAt_eq_some.2 ⟨.refl, rfl⟩
    have hzero := htimes htime before hself
    have hle := hmtp.le .refl hanc
    dsimp only at hzero ⊢
    omega
  · have hzero := hheights htime
    dsimp only at hzero ⊢
    omega

theorem within_of_shared {before now b : Ptr} (hbefore : IsAncestor T.index before b)
    (hnow : IsAncestor T.index now b) (hinput : input.2 ≤ (T.index b).nHeight) {height time : ℤ}
    (h : Within T before height time input) : Within T now height time input := by
  intro hdisabled
  obtain ⟨htimes, hheights⟩ := h hdisabled
  refine ⟨fun htime p hp => htimes htime p ?_, hheights⟩
  have hle : max (input.2 - 1) 0 ≤ (T.index b).nHeight := by omega
  rw [← ancestorAt_ancestor hbefore hle, ancestorAt_ancestor hnow hle, hp]

variable [DecidableEq Ptr]

/-- Lock points that were stored by a successful call and that are still valid may be used in
place of a new calculation: where they let the transaction pass, the calculation does. -/
theorem checkSequenceLocks_of_cached {before now : ChainView T} {tx : CTransaction}
    {flags : Int32} {lp₀ lp : LockPoints Ptr} (hmtp : MedianTimesOrdered T now.tip)
    (hshared : SharedCoins before now)
    (hstored : checkSequenceLocks before tx flags lp₀ false = .ok (true, lp))
    (hvalid : testLockPointValidity now lp = true)
    (havailable : ∀ txin ∈ tx.vin, now.prevHeight txin.prevout.hash ≠ none)
    (hcached : checkSequenceLocks now tx flags lp true = .ok (true, lp)) :
    ∃ lp', checkSequenceLocks now tx flags lp false = .ok (true, lp') := by
  obtain ⟨inputs, hinputs⟩ := now.prevheights_returns havailable
  refine checkSequenceLocks_passes lp hinputs fun henforce input hmem => ?_
  obtain ⟨hvin, hheight⟩ := (now.mem_prevheights hinputs input).1 hmem
  obtain ⟨old, b, hold, hb, hanc, hbelow, hwithin, hpassed⟩ :=
    checkSequenceLocks_stored henforce hstored
  have hnow : IsAncestor T.index now.tip b := by
    rw [testLockPointValidity, hb] at hvalid
    exact (ancestorAt_eq_some.1 (eq_of_beq hvalid)).1
  rw [checkSequenceLocks, if_pos rfl] at hcached
  have hpass := evaluateSequenceLocks_iff.1 (Prod.mk.inj (Except.ok.inj hcached)).1
  obtain ⟨height, hheight'⟩ := before.prevHeight_of_prevheights hold hvin
  have hmem' : (input.1, height) ∈ old := (before.mem_prevheights hold _).2 ⟨hvin, hheight'⟩
  cases hpool : before.inPool input.1.prevout.hash with
  | true =>
    rw [ChainView.prevHeight, if_pos hpool, some_inj] at hheight'
    subst hheight'
    exact within_of_pool hmtp (now.prevHeight_le hheight) (hwithin _ _ hpassed _ hmem')
  | false =>
    rw [ChainView.prevHeight, if_neg (by simp [hpool])] at hheight'
    obtain ⟨n, hn, rfl⟩ := map_eq_some_iff.1 hheight'
    have hle := before.coins_le _ n hn
    cases hdisabled : input.1.lockDisabled with
    | true => exact fun h => absurd (hdisabled.symm.trans h) (by simp)
    | false =>
      have hn' := hbelow _ hmem' hdisabled (by
        change (n : ℤ) ≠ _
        omega)
      have hsame := hshared b hanc hnow _ n input.2 hpool hn (Int.ofNat_le.1 hn') hheight
      have hpair : input = (input.1, Int.ofNat n) := Prod.ext rfl hsame
      rw [hpair]
      exact within_of_shared hanc hnow hn' (hwithin _ _ hpass _ hmem')

def waitingTx : CTransaction := ⟨2, [⟨⟨5, 0⟩, [], 1, []⟩], [⟨10, []⟩], 0⟩

def confirmedInput (tip : Bool) : ChainView genesisAndChild where
  tip := tip
  coins hash := if hash = 5 then some 0 else none
  inPool _ := false
  coins_le hash n h := by
    split_ifs at h
    cases h
    exact Nat.zero_le _

theorem confirmedInput_shared : SharedCoins (confirmedInput false) (confirmedInput true) := by
  intro b _ _ hash n height _ hn _ hheight
  rw [ChainView.prevHeight, if_neg (by simp [confirmedInput])] at hheight
  obtain ⟨m, hm, rfl⟩ := map_eq_some_iff.1 hheight
  rw [← some_inj.1 (hn.symm.trans hm)]
  rfl

/-- One block later the lock points of the genesis block are still good. -/
theorem checkSequenceLocks_of_cached_child : ∃ lp lp' : LockPoints Bool,
    checkSequenceLocks (confirmedInput false) waitingTx 1 ⟨0, 0, none⟩ false = .ok (true, lp) ∧
      checkSequenceLocks (confirmedInput true) waitingTx 1 lp false = .ok (true, lp') := by
  have heval : ∀ tip, evaluateSequenceLocks genesisAndChild tip (0, -1) = true := by
    intro tip
    have := getMedianTimePast_nonneg genesisAndChild tip
    exact evaluateSequenceLocks_iff.2 ⟨by omega, by omega⟩
  have hstored : checkSequenceLocks (confirmedInput false) waitingTx 1 ⟨0, 0, none⟩ false =
      .ok (true, ⟨0, -1, some false⟩) := by
    have hinputs : (confirmedInput false).prevheights waitingTx.vin =
        some [(⟨⟨5, 0⟩, [], 1, []⟩, 0)] := by rfl
    have hlocks : calculateSequenceLocks genesisAndChild (confirmedInput false).tip waitingTx 1
        [(⟨⟨5, 0⟩, [], 1, []⟩, 0)] = .ok ((0, -1), [0]) := by rfl
    have hblock : ancestorAt genesisAndChild.index (confirmedInput false).tip
        (maxInputHeight genesisAndChild (confirmedInput false).tip [0]) = some false := by rfl
    rw [checkSequenceLocks, if_neg (by simp), hinputs]
    dsimp only
    rw [hlocks, ok_bind]
    dsimp only
    rw [genesisAndChild.getAncestor_eq, hblock, ok_bind, heval]
    rfl
  have hcached : checkSequenceLocks (confirmedInput true) waitingTx 1 ⟨0, -1, some false⟩ true =
      .ok (true, ⟨0, -1, some false⟩) := by
    rw [checkSequenceLocks, if_pos rfl, heval]
  have hordered : MedianTimesOrdered genesisAndChild (confirmedInput true).tip :=
    genesisAndChild_ordered
  obtain ⟨lp', hlp'⟩ := checkSequenceLocks_of_cached hordered confirmedInput_shared hstored
    (by rfl) (by decide) hcached
  exact ⟨_, lp', hstored, hlp'⟩

end

end

end Coinyecoin
