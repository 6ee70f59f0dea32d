import Coinyecoin.Policy.FeeRate
import Coinyecoin.Wallet.SubsetSearch
import Mathlib.Data.List.GetD
import Mathlib.Data.List.TakeWhile

/-!
# Selecting the coins of a payment

`SelectCoinsMinConf` splits the eligible coins into those below the target and a
change margin and the lowest of the others, and chooses between a subset of the first
and the second. What it decides by chance, the order of the coins, the order of equal
values and the bits of the subset search, is an argument of the model.

If it returns, what it says is right but for one case: the lowest larger coin is
looked for below the largest 64-bit amount, which a coin of just that value is not. It
need not return: the coins below the margin are added up before anything is compared
with the target, and the sum of ten coins of the largest valid amount is out of range.
-/

namespace Coinyecoin

open Foundation List AmountReading

variable {c : ValuedCoin} {vValue : List ValuedCoin} {vfBest : Finset ℕ} {held : Option ValuedCoin}

/-- The change the wallet would like to leave. -/
def MIN_CHANGE : ℤ := 1000000

/-- The initial value of the lowest larger coin. -/
def MAX_AMOUNT : ℤ := 9223372036854775807

/-- An output the wallet may spend. -/
structure COutput where
  outpoint : COutPoint
  nDepth : ℤ
  fSpendable : Bool
deriving DecidableEq

/-- What the selection asks of the wallet's transactions and of the memory pool. -/
structure CoinView where
  nValue : COutPoint → ℤ
  fits : ∀ o, FitsInt64 (nValue o)
  hasOutput : COutPoint → Bool
  isFromMe : COutPoint → Bool
  withinChainLimit : COutPoint → ℕ → Bool

/-- What one selection decides by chance. -/
structure SelectionChoices where
  shuffle : List COutput → List COutput
  shuffle_perm : ∀ vCoins, (shuffle vCoins).Perm vCoins
  sort : List ValuedCoin → List ValuedCoin
  sort_perm : ∀ vValue, (sort vValue).Perm vValue
  sort_sorted : ∀ vValue, (sort vValue).Pairwise fun c d => c.1 ≤ d.1
  firstBits : ℕ → ℕ → Bool
  secondBits : ℕ → ℕ → Bool

/-- What a selection returns and leaves in its two reference arguments. -/
structure Selection where
  res : Bool
  setCoinsRet : Finset COutPoint
  nValueRet : ℤ
deriving DecidableEq

structure Attempt where
  nConfMine : ℤ
  nConfTheirs : ℤ
  nMaxAncestors : ℕ

/-- What the loop over the coins has set aside. -/
structure SplitCoins where
  vValue : List ValuedCoin
  nTotalLower : ℤ
  coinLowestLarger : Option ValuedCoin

namespace CoinSelection

section

variable (R : AmountReading) (view : CoinView) (choices : SelectionChoices)

def eligible (a : Attempt) (output : COutput) : Bool :=
  output.fSpendable &&
    (if view.isFromMe output.outpoint then a.nConfMine else a.nConfTheirs) ≤ output.nDepth &&
    view.withinChainLimit output.outpoint a.nMaxAncestors

def valued (output : COutput) : ValuedCoin := (view.nValue output.outpoint, output.outpoint)

def eligibleCoins (a : Attempt) (vCoins : List COutput) : List ValuedCoin :=
  (vCoins.filter (eligible view a)).map (valued view)

/-- The value a larger coin has to stay below. -/
def lowestValue (coinLowestLarger : Option ValuedCoin) : ℤ :=
  (coinLowestLarger.map Prod.fst).getD MAX_AMOUNT

/-- A larger coin is kept if it is lower than the one there is. -/
def keepLowest (coinLowestLarger : Option ValuedCoin) (coin : ValuedCoin) : Option ValuedCoin :=
  if coin.1 < lowestValue coinLowestLarger then some coin else coinLowestLarger

/-- The loop over the coins. It ends at a coin of the target's value. -/
def splitCoins (nTargetValue : ℤ) :
    List ValuedCoin → SplitCoins → Except Fault (ValuedCoin ⊕ SplitCoins)
  | [], st => .ok (.inr st)
  | coin :: coins, st =>
    if coin.1 = nTargetValue then .ok (.inl coin)
    else do
      let margin ← R.value (nTargetValue + MIN_CHANGE)
      if coin.1 < margin then do
        let nTotalLower ← R.value (st.nTotalLower + coin.1)
        splitCoins nTargetValue coins ⟨st.vValue ++ [coin], nTotalLower, st.coinLowestLarger⟩
      else
        splitCoins nTargetValue coins
          ⟨st.vValue, st.nTotalLower, keepLowest st.coinLowestLarger coin⟩

def gather (coins : List ValuedCoin) (start : Finset COutPoint × ℤ) :
    Except Fault (Finset COutPoint × ℤ) :=
  coins.foldlM (fun acc coin => do
    let nValueRet ← R.value (acc.2 + coin.1)
    return (insert coin.2 acc.1, nValueRet)) start

def accept (coins : List ValuedCoin) : Except Fault Selection := do
  let acc ← gather R coins (∅, 0)
  return ⟨true, acc.1, acc.2⟩

def flagged (vValue : List ValuedCoin) (vfBest : Finset ℕ) : List ValuedCoin :=
  ((List.range vValue.length).filter (· ∈ vfBest)).map (coinAt vValue)

/-- The best subset for the target or, if that leaves some change, for the target and the margin. -/
def bestSubset (nTargetValue : ℤ) (vValue : List ValuedCoin) (nTotalLower : ℤ) :
    Except Fault (Finset ℕ × ℤ) := do
  let best ← SubsetSearch.approximateBestSubset R vValue nTargetValue choices.firstBits nTotalLower
  if best.2 = nTargetValue then return best
  else do
    let margin ← R.value (nTargetValue + MIN_CHANGE)
    if nTotalLower ≥ margin then
      SubsetSearch.approximateBestSubset R vValue margin choices.secondBits nTotalLower
    else return best

/-- The best subset leaves some change, but less than the margin. -/
def leavesLittle (nTargetValue nBest : ℤ) : Except Fault Bool :=
  if nBest = nTargetValue then .ok false
  else do
    let margin ← R.value (nTargetValue + MIN_CHANGE)
    return nBest < margin

/-- The best subset is accepted, or a larger coin in its place. -/
def chooseBest (nTargetValue : ℤ) (vValue : List ValuedCoin) (vfBest : Finset ℕ) (nBest : ℤ) :
    Option ValuedCoin → Except Fault Selection
  | none => accept R (flagged vValue vfBest)
  | some coin => do
    let little ← leavesLittle R nTargetValue nBest
    if little || coin.1 ≤ nBest then accept R [coin] else accept R (flagged vValue vfBest)

def chooseCoins (nTargetValue : ℤ) (st : SplitCoins) : Except Fault Selection :=
  if st.nTotalLower = nTargetValue then accept R st.vValue
  else if st.nTotalLower < nTargetValue then
    match st.coinLowestLarger with
    | none => .ok ⟨false, ∅, 0⟩
    | some coin => accept R [coin]
  else do
    let vValue := (choices.sort st.vValue).reverse
    let best ← bestSubset R choices nTargetValue vValue st.nTotalLower
    chooseBest R nTargetValue vValue best.1 best.2 st.coinLowestLarger

def chooseSplit (nTargetValue : ℤ) : ValuedCoin ⊕ SplitCoins → Except Fault Selection
  | .inl coin => accept R [coin]
  | .inr st => chooseCoins R choices nTargetValue st

def selectCoinsMinConf (nTargetValue : ℤ) (a : Attempt) (vCoins : List COutput) :
    Except Fault Selection := do
  let split ← splitCoins R nTargetValue (eligibleCoins view a (choices.shuffle vCoins)) ⟨[], 0, none⟩
  chooseSplit R choices nTargetValue split

end

/-! ### Lists of coins -/

def total (coins : List ValuedCoin) : ℤ := (coins.map Prod.fst).sum

structure Coins (view : CoinView) (coins : List ValuedCoin) : Prop where
  nodup : (coins.map Prod.snd).Nodup
  value : ∀ c ∈ coins, c.1 = view.nValue c.2
  pos : ∀ c ∈ coins, 0 < c.1

def coinSet (coins : List ValuedCoin) : Finset COutPoint := (coins.map Prod.snd).toFinset

section

variable {R : AmountReading} {view : CoinView} {coins chosen : List ValuedCoin}

theorem total_cons (c : ValuedCoin) (coins : List ValuedCoin) :
    total (c :: coins) = c.1 + total coins := by
  simp [total]

theorem total_singleton {c : ValuedCoin} : total [c] = c.1 := by
  simp [total]

theorem coinSet_cons (c : ValuedCoin) (coins : List ValuedCoin) :
    coinSet (c :: coins) = insert c.2 (coinSet coins) := by
  simp [coinSet]

theorem mem_coinSet {o : COutPoint} : o ∈ coinSet coins ↔ ∃ c ∈ coins, c.2 = o := by
  simp [coinSet]

theorem coinSet_mono (h : chosen ⊆ coins) : coinSet chosen ⊆ coinSet coins := by
  intro o ho
  obtain ⟨c, hc, rfl⟩ := mem_coinSet.1 ho
  exact mem_coinSet.2 ⟨c, h hc, rfl⟩

namespace Coins

section

variable (h : Coins view coins)
include h

theorem sublist (hsub : chosen.Sublist coins) : Coins view chosen :=
  ⟨h.nodup.sublist (hsub.map _), fun c hc => h.value c (hsub.subset hc),
    fun c hc => h.pos c (hsub.subset hc)⟩

theorem perm (hperm : chosen.Perm coins) : Coins view chosen :=
  ⟨(hperm.map _).nodup_iff.2 h.nodup, fun c hc => h.value c (hperm.subset hc),
    fun c hc => h.pos c (hperm.subset hc)⟩

theorem total_nonneg : 0 ≤ total coins := by
  refine sum_nonneg fun n hn => ?_
  obtain ⟨c, hc, rfl⟩ := mem_map.1 hn
  exact (h.pos c hc).le

theorem total_le (hsub : chosen.Sublist coins) : total chosen ≤ total coins := by
  refine (hsub.map Prod.fst).sum_le_sum fun n hn => ?_
  obtain ⟨c, hc, rfl⟩ := mem_map.1 hn
  exact (h.pos c hc).le

theorem singleton (hc : c ∈ coins) : Coins view [c] :=
  h.sublist (singleton_sublist.2 hc)

theorem le_total (hc : c ∈ coins) : c.1 ≤ total coins := by
  have hle := h.total_le (singleton_sublist.2 hc)
  rwa [total_singleton] at hle

theorem has (hc : c ∈ coins) (R : AmountReading) : R.Has c.1 := by
  cases R with
  | int64 => exact h.value c hc ▸ view.fits c.2
  | unbounded => exact trivial

theorem sum_coinSet : ∑ o ∈ coinSet coins, view.nValue o = total coins := by
  rw [coinSet, sum_toFinset _ h.nodup, map_map, total]
  refine congrArg List.sum (map_congr_left fun c hc => ?_)
  exact (h.value c hc).symm

end

end Coins

theorem total_perm (h : chosen.Perm coins) : total chosen = total coins := (h.map _).sum_eq

theorem gather_eq_ok (h : Coins view coins) (start : Finset COutPoint × ℤ) (hstart : R.Has start.2)
    (hend : R.Has (start.2 + total coins)) :
    gather R coins start = .ok (start.1 ∪ coinSet coins, start.2 + total coins) := by
  induction coins generalizing start with
  | nil =>
    simp only [gather, foldlM_nil, coinSet, total, map_nil, toFinset_nil,
      Finset.union_empty, sum_nil, add_zero]
    rfl
  | cons c coins ih =>
    have htail := h.sublist (sublist_cons_self c coins)
    have hpos := h.pos c mem_cons_self
    rw [total_cons, ← add_assoc] at hend
    have hnext : R.Has (start.2 + c.1) :=
      hstart.between hend (by omega) (by have := htail.total_nonneg; omega)
    have hrest := ih htail (insert c.2 start.1, start.2 + c.1) hnext hend
    unfold gather at hrest ⊢
    rw [foldlM_cons, value_of_has hnext, ok_bind]
    rw [total_cons, coinSet_cons, ← add_assoc, Finset.union_insert, ← Finset.insert_union]
    exact hrest

theorem accept_eq_ok (h : Coins view coins) (hsum : R.Has (total coins)) :
    accept R coins = .ok ⟨true, coinSet coins, total coins⟩ := by
  unfold accept
  rw [gather_eq_ok h (∅, 0) R.has_zero (by rwa [zero_add]), ok_bind, Finset.empty_union,
    zero_add]
  rfl

theorem map_coinAt_range (vValue : List ValuedCoin) :
    (List.range vValue.length).map (coinAt vValue) = vValue := by
  refine ext_getElem (by simp) fun i hi hi' => ?_
  rw [getElem_map, getElem_range, coinAt, getD_eq_getElem _ _ hi']

theorem flagged_sublist (vValue : List ValuedCoin) (vfBest : Finset ℕ) :
    (flagged vValue vfBest).Sublist vValue := by
  have hsub := (filter_sublist (p := (· ∈ vfBest)) (l := List.range vValue.length)).map
    (coinAt vValue)
  rwa [map_coinAt_range] at hsub

theorem total_flagged (h : vfBest ⊆ Finset.range vValue.length) :
    total (flagged vValue vfBest) = SubsetSearch.sumAt vValue vfBest := by
  have hset : ((List.range vValue.length).filter (· ∈ vfBest)).toFinset = vfBest := by
    ext i
    simp only [mem_toFinset, mem_filter, mem_range, decide_eq_true_eq]
    exact ⟨fun hi => hi.2, fun hi => ⟨Finset.mem_range.1 (h hi), hi⟩⟩
  have hnodup := (nodup_range (n := vValue.length)).filter (· ∈ vfBest)
  rw [total, flagged, map_map, SubsetSearch.sumAt]
  conv_rhs => rw [← hset]
  exact (sum_toFinset _ hnodup).symm

theorem sumAt_range {vValue : List ValuedCoin} :
    SubsetSearch.sumAt vValue (Finset.range vValue.length) = total vValue := by
  rw [← total_flagged subset_rfl]
  refine congrArg total ?_
  have hall : (List.range vValue.length).filter (· ∈ Finset.range vValue.length) =
      List.range vValue.length := by
    rw [filter_eq_self]
    intro i hi
    exact decide_eq_true (Finset.mem_range.2 (mem_range.1 hi))
  rw [flagged, hall, map_coinAt_range]

theorem hasSums (h : Coins view coins) (hsum : R.Has (total coins)) :
    SubsetSearch.HasSums R coins := by
  intro S hS
  rw [← total_flagged hS]
  have hsub := flagged_sublist coins S
  exact R.has_zero.between hsum (h.sublist hsub).total_nonneg (h.total_le hsub)

end

/-! ### The loop over the coins -/

def isLower (nTargetValue : ℤ) (coin : ValuedCoin) : Bool := coin.1 < nTargetValue + MIN_CHANGE

def lower (nTargetValue : ℤ) (coins : List ValuedCoin) : List ValuedCoin :=
  coins.filter (isLower nTargetValue)

def larger (nTargetValue : ℤ) (coins : List ValuedCoin) : List ValuedCoin :=
  coins.filter fun coin => !isLower nTargetValue coin

/-- The coins before the first one of the target's value. -/
def examined (nTargetValue : ℤ) (coins : List ValuedCoin) : List ValuedCoin :=
  coins.takeWhile fun coin => coin.1 ≠ nTargetValue

def setAside (nTargetValue : ℤ) (coins : List ValuedCoin) (st : SplitCoins) : SplitCoins where
  vValue := st.vValue ++ lower nTargetValue coins
  nTotalLower := st.nTotalLower + total (lower nTargetValue coins)
  coinLowestLarger := (larger nTargetValue coins).foldl keepLowest st.coinLowestLarger

def splitResult (nTargetValue : ℤ) (coins : List ValuedCoin) (st : SplitCoins) :
    ValuedCoin ⊕ SplitCoins :=
  match coins.find? fun coin => coin.1 = nTargetValue with
  | some coin => .inl coin
  | none => .inr (setAside nTargetValue coins st)

/-- The sums of the loop are amounts of the reading. -/
def SumsFit (R : AmountReading) (nTargetValue : ℤ) (coins : List ValuedCoin) (nTotalLower : ℤ) :
    Prop :=
  (examined nTargetValue coins ≠ [] → R.Has (nTargetValue + MIN_CHANGE)) ∧
    R.Has (nTotalLower + total (lower nTargetValue (examined nTargetValue coins)))

section

variable {R : AmountReading} {view : CoinView} {nTargetValue : ℤ} {coins : List ValuedCoin}
  {coin : ValuedCoin} {st : SplitCoins}

theorem examined_cons_of_ne (h : coin.1 ≠ nTargetValue) (coins : List ValuedCoin) :
    examined nTargetValue (coin :: coins) = coin :: examined nTargetValue coins := by
  simp [examined, h]

theorem examined_eq_self (h : ∀ c ∈ coins, c.1 ≠ nTargetValue) :
    examined nTargetValue coins = coins := by
  refine takeWhile_eq_self_iff.2 fun c hc => ?_
  exact decide_eq_true (h c hc)

theorem splitResult_cons_of_lower (hne : coin.1 ≠ nTargetValue) (hlow : isLower nTargetValue coin) :
    splitResult nTargetValue (coin :: coins) st =
      splitResult nTargetValue coins
        ⟨st.vValue ++ [coin], st.nTotalLower + coin.1, st.coinLowestLarger⟩ := by
  simp [splitResult, setAside, lower, larger, hne, hlow, total_cons, add_assoc]

theorem splitResult_cons_of_larger (hne : coin.1 ≠ nTargetValue)
    (hlow : isLower nTargetValue coin = false) :
    splitResult nTargetValue (coin :: coins) st =
      splitResult nTargetValue coins
        ⟨st.vValue, st.nTotalLower, keepLowest st.coinLowestLarger coin⟩ := by
  simp [splitResult, setAside, lower, larger, hne, hlow]

theorem splitCoins_eq_ok (h : Coins view coins) (hst : R.Has st.nTotalLower)
    {r : ValuedCoin ⊕ SplitCoins} :
    splitCoins R nTargetValue coins st = .ok r ↔
      SumsFit R nTargetValue coins st.nTotalLower ∧ r = splitResult nTargetValue coins st := by
  induction coins generalizing st with
  | nil =>
    simp [splitCoins, SumsFit, examined, lower, total, splitResult, setAside, larger, hst, eq_comm]
  | cons coin coins ih =>
    have htail := h.sublist (sublist_cons_self coin coins)
    have hpos := h.pos coin mem_cons_self
    rw [splitCoins]
    split_ifs with hexact
    · simp [SumsFit, examined, lower, total, splitResult, hexact, hst, eq_comm]
    · have hseen : SumsFit R nTargetValue (coin :: coins) st.nTotalLower ↔
          R.Has (nTargetValue + MIN_CHANGE) ∧
            R.Has (st.nTotalLower +
              total (lower nTargetValue (coin :: examined nTargetValue coins))) := by
        simp [SumsFit, examined_cons_of_ne hexact]
      rw [hseen]
      by_cases hmargin : R.Has (nTargetValue + MIN_CHANGE)
      · rw [value_of_has hmargin, ok_bind]
        split_ifs with hlow
        · have hlow' : isLower nTargetValue coin = true := decide_eq_true hlow
          rw [splitResult_cons_of_lower hexact hlow', lower, filter_cons_of_pos hlow',
            total_cons, ← add_assoc]
          have hrest : 0 ≤ total (lower nTargetValue (examined nTargetValue coins)) :=
            ((htail.sublist (takeWhile_sublist _)).sublist filter_sublist).total_nonneg
          by_cases hnext : R.Has (st.nTotalLower + coin.1)
          · rw [value_of_has hnext, ok_bind, ih htail hnext]
            simp [SumsFit, hmargin, lower]
          · refine iff_of_false ?_ fun hend => hnext ?_
            · intro hrun
              obtain ⟨v, hv, -⟩ := bind_eq_ok.1 hrun
              exact hnext (value_eq_ok.1 hv).1
            · exact hst.between hend.1.2 (by omega) (by unfold lower at hrest; omega)
        · have hlow' : isLower nTargetValue coin = false := decide_eq_false hlow
          have hst' : R.Has (SplitCoins.mk st.vValue st.nTotalLower
              (keepLowest st.coinLowestLarger coin)).nTotalLower := hst
          rw [ih htail hst', splitResult_cons_of_larger hexact hlow', lower,
            filter_cons_of_neg (by simp [hlow'])]
          simp [SumsFit, hmargin, lower]
      · refine iff_of_false ?_ fun hend => hmargin hend.1.1
        intro hrun
        obtain ⟨v, hv, -⟩ := bind_eq_ok.1 hrun
        exact hmargin (value_eq_ok.1 hv).1

theorem foldl_keepLowest_eq_none :
    coins.foldl keepLowest held = none ↔ held = none ∧ ∀ c ∈ coins, MAX_AMOUNT ≤ c.1 := by
  induction coins generalizing held with
  | nil => simp
  | cons coin coins ih =>
    have hkeep : keepLowest held coin = none ↔ held = none ∧ MAX_AMOUNT ≤ coin.1 := by
      unfold keepLowest
      cases held with
      | none =>
        have hstart : lowestValue none = MAX_AMOUNT := rfl
        split_ifs with hlow
        · exact iff_of_false (by simp) (by omega)
        · exact iff_of_true rfl ⟨rfl, by omega⟩
      | some c => split_ifs <;> simp
    rw [foldl_cons, ih, hkeep]
    simp [and_assoc]

theorem mem_of_foldl_keepLowest
    (h : coins.foldl keepLowest held = some c) : held = some c ∨ c ∈ coins := by
  induction coins generalizing held with
  | nil => exact .inl h
  | cons coin coins ih =>
    rcases ih h with hheld | hmem
    · unfold keepLowest at hheld
      split_ifs at hheld with hlow
      · exact .inr (Option.some.inj hheld ▸ mem_cons_self)
      · exact .inl hheld
    · exact .inr (mem_cons_of_mem _ hmem)

end

/-! ### The choice -/

/-- A selection of some of the coins, with their sum, that reaches the target. -/
structure Selects (view : CoinView) (coins : List ValuedCoin) (nTargetValue : ℤ)
    (sel : Selection) : Prop where
  subset : sel.setCoinsRet ⊆ coinSet coins
  sum : ∑ o ∈ sel.setCoinsRet, view.nValue o = sel.nValueRet
  reaches : nTargetValue ≤ sel.nValueRet

section

variable {R : AmountReading} {view : CoinView} {choices : SelectionChoices} {nTargetValue : ℤ}
  {coins chosen : List ValuedCoin}

theorem accept_selects (h : Coins view chosen) (hsum : R.Has (total chosen)) (hsub : chosen ⊆ coins)
    (hreach : nTargetValue ≤ total chosen) :
    ∃ sel, accept R chosen = .ok sel ∧ sel.res = true ∧ Selects view coins nTargetValue sel :=
  ⟨_, accept_eq_ok h hsum, rfl, coinSet_mono hsub, h.sum_coinSet, hreach⟩

theorem bestSubset_spec (h : Coins view coins) (hsum : R.Has (total coins))
    (hmargin : R.Has (nTargetValue + MIN_CHANGE)) (hreach : nTargetValue ≤ total coins) :
    ∃ vfBest nBest, bestSubset R choices nTargetValue coins (total coins) = .ok (vfBest, nBest) ∧
      vfBest ⊆ Finset.range coins.length ∧ nTargetValue ≤ SubsetSearch.sumAt coins vfBest := by
  have hsearch (target : ℤ) (htarget : target ≤ total coins) (bits : ℕ → ℕ → Bool) :=
    SubsetSearch.approximateBestSubset_spec (hasSums h hsum) (sumAt_range).symm htarget bits
  obtain ⟨vfBest, nBest, hrun, hsub, hbest, hfirst⟩ := hsearch _ hreach choices.firstBits
  unfold bestSubset
  rw [hrun, ok_bind]
  split_ifs with hexact
  · exact ⟨vfBest, nBest, rfl, hsub, hbest ▸ hfirst⟩
  · rw [value_of_has hmargin, ok_bind]
    split_ifs with hmore
    · obtain ⟨vfBest', nBest', hrun', hsub', hbest', hsecond⟩ :=
        hsearch _ hmore choices.secondBits
      refine ⟨vfBest', nBest', hrun', hsub', ?_⟩
      have : (0 : ℤ) ≤ MIN_CHANGE := by decide
      omega
    · exact ⟨vfBest, nBest, rfl, hsub, hbest ▸ hfirst⟩

theorem accept_larger (h : Coins view coins) {coin : ValuedCoin} (hmem : coin ∈ coins)
    (hreach : nTargetValue ≤ coin.1) :
    ∃ sel, accept R [coin] = .ok sel ∧ sel.res = true ∧ Selects view coins nTargetValue sel :=
  accept_selects (h.singleton hmem) (total_singleton ▸ h.has hmem R)
    (cons_subset.2 ⟨hmem, nil_subset coins⟩) (total_singleton ▸ hreach)

/-- What was set aside are coins of the list, with the sum of those below the margin. -/
structure SetAside (view : CoinView) (coins : List ValuedCoin) (nTargetValue : ℤ)
    (st : SplitCoins) : Prop where
  lowerCoins : Coins view st.vValue
  subset : st.vValue ⊆ coins
  total : st.nTotalLower = total st.vValue
  larger : ∀ c, st.coinLowestLarger = some c → c ∈ coins ∧ nTargetValue ≤ c.1

theorem SetAside.accept_flagged {st : SplitCoins} (hst : SetAside view coins nTargetValue st)
    (hsum : R.Has st.nTotalLower)
    (hsub : vfBest ⊆ Finset.range (choices.sort st.vValue).reverse.length)
    (hreach : nTargetValue ≤ SubsetSearch.sumAt (choices.sort st.vValue).reverse vfBest) :
    ∃ sel, accept R (flagged (choices.sort st.vValue).reverse vfBest) = .ok sel ∧
      sel.res = true ∧ Selects view coins nTargetValue sel := by
  have hperm := (choices.sort st.vValue).reverse_perm.trans (choices.sort_perm st.vValue)
  have hsorted := hst.lowerCoins.perm hperm
  have hflagged := flagged_sublist (choices.sort st.vValue).reverse vfBest
  have hchosen := hsorted.sublist hflagged
  refine accept_selects hchosen ?_ ?_ (total_flagged hsub ▸ hreach)
  · rw [hst.total, ← total_perm hperm] at hsum
    exact R.has_zero.between hsum hchosen.total_nonneg (hsorted.total_le hflagged)
  · exact fun c hc => hst.subset (hperm.subset (hflagged.subset hc))

theorem SetAside.chooseBest {st : SplitCoins} (hst : SetAside view coins nTargetValue st)
    (h : Coins view coins) (hmargin : R.Has (nTargetValue + MIN_CHANGE)) {nBest : ℤ}
    (hflagged : ∃ sel, accept R (flagged vValue vfBest) = .ok sel ∧ sel.res = true ∧
      Selects view coins nTargetValue sel) :
    ∃ sel, CoinSelection.chooseBest R nTargetValue vValue vfBest nBest st.coinLowestLarger =
      .ok sel ∧ sel.res = true ∧ Selects view coins nTargetValue sel := by
  cases hlarger : st.coinLowestLarger with
  | none => exact hflagged
  | some coin =>
    obtain ⟨hmem, hreach⟩ := hst.larger coin hlarger
    have hlittle : ∃ little, leavesLittle R nTargetValue nBest = .ok little := by
      unfold leavesLittle
      split_ifs
      · exact ⟨_, rfl⟩
      · rw [value_of_has hmargin]
        exact ⟨_, rfl⟩
    obtain ⟨little, hlittle⟩ := hlittle
    rw [CoinSelection.chooseBest, hlittle, ok_bind]
    split_ifs
    · exact accept_larger h hmem hreach
    · exact hflagged

theorem SetAside.chooseCoins {st : SplitCoins} (hst : SetAside view coins nTargetValue st)
    (choices : SelectionChoices) (h : Coins view coins) (htarget : 0 < nTargetValue)
    (hsum : R.Has st.nTotalLower) (hmargin : st.vValue ≠ [] → R.Has (nTargetValue + MIN_CHANGE)) :
    ∃ sel, chooseCoins R choices nTargetValue st = .ok sel ∧
      (sel.res = false ↔ st.nTotalLower < nTargetValue ∧ st.coinLowestLarger = none) ∧
      (sel.res = true → Selects view coins nTargetValue sel) := by
  -- a selection that succeeds, where the choice may not fail
  have hsuccess {run : Except Fault Selection}
      (hrun : ∃ sel, run = .ok sel ∧ sel.res = true ∧ Selects view coins nTargetValue sel)
      (hnot : ¬(st.nTotalLower < nTargetValue ∧ st.coinLowestLarger = none)) :
      ∃ sel, run = .ok sel ∧
        (sel.res = false ↔ st.nTotalLower < nTargetValue ∧ st.coinLowestLarger = none) ∧
        (sel.res = true → Selects view coins nTargetValue sel) := by
    obtain ⟨sel, hok, hres, hsel⟩ := hrun
    exact ⟨sel, hok, iff_of_false (by simp [hres]) hnot, fun _ => hsel⟩
  unfold CoinSelection.chooseCoins
  split_ifs with hexact hless
  · refine hsuccess (accept_selects hst.lowerCoins (hst.total ▸ hsum) hst.subset ?_) fun hfail => ?_
    · exact (hst.total ▸ hexact).ge
    · exact absurd hfail.1 (by omega)
  · cases hlarger : st.coinLowestLarger with
    | none => exact ⟨_, rfl, iff_of_true rfl ⟨hless, rfl⟩, fun hres => absurd hres (by simp)⟩
    | some coin =>
      obtain ⟨hmem, hreach⟩ := hst.larger coin hlarger
      rw [hlarger] at hsuccess
      exact hsuccess (accept_larger h hmem hreach) fun hfail => by simp at hfail
  · have hreach : nTargetValue ≤ st.nTotalLower := not_lt.1 hless
    have hnot : ¬(st.nTotalLower < nTargetValue ∧ st.coinLowestLarger = none) :=
      fun hfail => hless hfail.1
    have hne : st.vValue ≠ [] := by
      rintro hnil
      rw [hst.total, hnil, CoinSelection.total, map_nil, sum_nil] at hreach
      omega
    have hperm := (choices.sort st.vValue).reverse_perm.trans (choices.sort_perm st.vValue)
    have htotal : st.nTotalLower = CoinSelection.total (choices.sort st.vValue).reverse := by
      rw [hst.total, total_perm hperm]
    obtain ⟨vfBest, nBest, hrun, hsub, hbest⟩ := bestSubset_spec (hst.lowerCoins.perm hperm)
      (htotal ▸ hsum) (hmargin hne) (htotal ▸ hreach)
    have hflagged := hst.accept_flagged hsum hsub hbest
    dsimp only
    rw [htotal, hrun, ok_bind, ← htotal]
    exact hsuccess (hst.chooseBest h (hmargin hne) hflagged) hnot

end

/-! ### The selection -/

section

variable {R : AmountReading} {view : CoinView} {choices : SelectionChoices} {nTargetValue : ℤ}
  {coins : List ValuedCoin} {a : Attempt} {vCoins : List COutput}

structure Available (view : CoinView) (vCoins : List COutput) : Prop where
  nodup : (vCoins.map COutput.outpoint).Nodup
  pos : ∀ output ∈ vCoins, 0 < view.nValue output.outpoint

section

variable (h : Available view vCoins)
include h

theorem Available.sublist {vCoins' : List COutput}
    (hsub : vCoins'.Sublist vCoins) : Available view vCoins' :=
  ⟨h.nodup.sublist (hsub.map _), fun output hout => h.pos output (hsub.subset hout)⟩

theorem Available.valuedCoins : Coins view (vCoins.map (valued view)) := by
  refine ⟨?_, ?_, ?_⟩
  · rw [map_map]
    exact h.nodup
  · intro c hc
    obtain ⟨output, -, rfl⟩ := mem_map.1 hc
    rfl
  · intro c hc
    obtain ⟨output, hout, rfl⟩ := mem_map.1 hc
    exact h.pos output hout

theorem Available.eligibleCoins : Coins view (eligibleCoins view a vCoins) :=
  (h.sublist filter_sublist).valuedCoins

end

theorem eligibleCoins_shuffle_perm (view : CoinView) (choices : SelectionChoices) (a : Attempt)
    (vCoins : List COutput) :
    (eligibleCoins view a (choices.shuffle vCoins)).Perm (eligibleCoins view a vCoins) :=
  ((choices.shuffle_perm vCoins).filter _).map _

theorem setAside_of_coins (h : Coins view coins) (nTargetValue : ℤ) :
    SetAside view coins nTargetValue (setAside nTargetValue coins ⟨[], 0, none⟩) where
  lowerCoins := h.sublist List.filter_sublist
  subset := (List.filter_sublist (l := coins)).subset
  total := by simp [setAside]
  larger c hc := by
    obtain hnone | hmem := mem_of_foldl_keepLowest hc
    · cases hnone
    · obtain ⟨hmem, hlarge⟩ := mem_filter.1 hmem
      refine ⟨hmem, ?_⟩
      have hle : ¬c.1 < nTargetValue + MIN_CHANGE := by simpa [isLower] using hlarge
      have : (0 : ℤ) ≤ MIN_CHANGE := by decide
      omega

/-- The reasons to fail: no coin has the target's value, those below the margin do not reach it and
no larger one is below the value the search starts with. -/
def Fails (nTargetValue : ℤ) (coins : List ValuedCoin) : Prop :=
  (∀ c ∈ coins, c.1 ≠ nTargetValue) ∧ total (lower nTargetValue coins) < nTargetValue ∧
    ∀ c ∈ larger nTargetValue coins, MAX_AMOUNT ≤ c.1

theorem chooseSplit_spec {choices : SelectionChoices} (h : Coins view coins) (htarget : 0 < nTargetValue)
    (hfit : SumsFit R nTargetValue coins 0) :
    ∃ sel, chooseSplit R choices nTargetValue (splitResult nTargetValue coins ⟨[], 0, none⟩) =
        .ok sel ∧
      (sel.res = false ↔ Fails nTargetValue coins) ∧
      (sel.res = true → Selects view coins nTargetValue sel) := by
  unfold splitResult
  cases hfind : coins.find? fun coin => coin.1 = nTargetValue with
  | some coin =>
    have hmem := mem_of_find?_eq_some hfind
    have hexact : coin.1 = nTargetValue := by simpa using find?_some hfind
    obtain ⟨sel, hrun, hres, hsel⟩ := accept_larger (R := R) h hmem hexact.ge
    refine ⟨sel, hrun, iff_of_false (by simp [hres]) ?_, fun _ => hsel⟩
    exact fun hnone => hnone.1 coin hmem hexact
  | none =>
    have hne : ∀ c ∈ coins, c.1 ≠ nTargetValue := by simpa using hfind
    rw [SumsFit, examined_eq_self hne] at hfit
    have hst := setAside_of_coins h nTargetValue
    obtain ⟨sel, hrun, hres, hsel⟩ := hst.chooseCoins choices h htarget hfit.2
      fun hlower => hfit.1 fun hnil => hlower (by simp [hnil, setAside, lower])
    refine ⟨sel, hrun, hres.trans ?_, hsel⟩
    simp only [setAside, foldl_keepLowest_eq_none, zero_add, true_and]
    exact ⟨fun hfail => ⟨hne, hfail⟩, fun hfail => hfail.2⟩

theorem selectCoinsMinConf_returns (h : Available view vCoins) (htarget : 0 < nTargetValue) :
    (∃ sel, selectCoinsMinConf R view choices nTargetValue a vCoins = .ok sel) ↔
      SumsFit R nTargetValue (eligibleCoins view a (choices.shuffle vCoins)) 0 := by
  have hcoins := h.eligibleCoins.perm (eligibleCoins_shuffle_perm view choices a vCoins)
  constructor
  · rintro ⟨sel, hrun⟩
    obtain ⟨split, hsplit, -⟩ := bind_eq_ok.1 hrun
    exact ((splitCoins_eq_ok hcoins R.has_zero).1 hsplit).1
  · intro hfit
    obtain ⟨sel, hrun, -⟩ := chooseSplit_spec hcoins htarget hfit
    exact ⟨sel, bind_eq_ok.2 ⟨_, (splitCoins_eq_ok hcoins R.has_zero).2 ⟨hfit, rfl⟩, hrun⟩⟩

theorem selectCoinsMinConf_eq_ok (h : Available view vCoins) (htarget : 0 < nTargetValue)
    {sel : Selection} (hrun : selectCoinsMinConf R view choices nTargetValue a vCoins = .ok sel) :
    (sel.res = false ↔ Fails nTargetValue (eligibleCoins view a (choices.shuffle vCoins))) ∧
      (sel.res = true → Selects view (eligibleCoins view a vCoins) nTargetValue sel) := by
  have hperm := eligibleCoins_shuffle_perm view choices a vCoins
  have hcoins := h.eligibleCoins.perm hperm
  obtain ⟨split, hsplit, hchoose⟩ := bind_eq_ok.1 hrun
  obtain ⟨hfit, rfl⟩ := (splitCoins_eq_ok hcoins R.has_zero).1 hsplit
  obtain ⟨sel', hrun', hfails, hsel⟩ := chooseSplit_spec hcoins htarget hfit
  obtain rfl : sel' = sel := Except.ok.inj (hrun'.symm.trans hchoose)
  refine ⟨hfails, fun hres => ?_⟩
  obtain ⟨hsub, hsum, hreach⟩ := hsel hres
  exact ⟨hsub.trans (coinSet_mono hperm.subset), hsum, hreach⟩

end

end CoinSelection

end Coinyecoin
