import Coinyecoin.Wallet.CoinSelection
import Mathlib.Data.List.Sort

/-!
# Selecting with preset inputs

`SelectCoins` adds up the inputs that coin control presets, takes them out of the
available coins and tries `SelectCoinsMinConf` for the rest of the target with
conditions that get weaker from call to call. What it returns success with is the
presets and other coins, together with their sum, whenever it returns.
-/

namespace Coinyecoin

open Foundation List Finset

variable {coins : List ValuedCoin}

/-- What coin control sets. The selected outpoints are in the order of the set. -/
structure CCoinControl where
  setSelected : List COutPoint
  nodup : setSelected.Nodup
  fAllowOtherInputs : Bool
  fOverrideFeeRate : Bool
  nFeeRate : CFeeRate
  nMinimumTotalFee : ℤ

namespace CCoinControl

def hasSelected (coinControl : CCoinControl) : Bool := !coinControl.setSelected.isEmpty

end CCoinControl

/-- The options `SelectCoins` reads. -/
structure SelectOptions where
  nMaxChainLength : ℕ
  fRejectLongChains : Bool
  bSpendZeroConfChange : Bool

namespace CoinSelection

section

variable (R : AmountReading) (view : CoinView) (options : SelectOptions)
  (choices : ℕ → SelectionChoices)

/-- The preset inputs with their sum; none if one of them is not an output of the wallet. -/
def presetCoins : List COutPoint → Finset COutPoint → ℤ →
    Except Fault (Option (Finset COutPoint × ℤ))
  | [], setPresetCoins, nValue => .ok (some (setPresetCoins, nValue))
  | outpoint :: outpoints, setPresetCoins, nValue =>
    if view.hasOutput outpoint then do
      let nValue ← R.value (nValue + view.nValue outpoint)
      presetCoins outpoints (insert outpoint setPresetCoins) nValue
    else .ok none

def attempts : List Attempt :=
  [⟨1, 6, 0⟩, ⟨1, 1, 0⟩] ++
    if options.bSpendZeroConfChange then
      [⟨0, 1, 2⟩, ⟨0, 1, min 4 (options.nMaxChainLength / 3)⟩, ⟨0, 1, options.nMaxChainLength / 2⟩,
        ⟨0, 1, options.nMaxChainLength⟩] ++
        if options.fRejectLongChains then [] else [⟨0, 1, 18446744073709551615⟩]
    else []

def selectFirst (nTargetValue : ℤ) (vCoins : List COutput) :
    ℕ → List Attempt → Selection → Except Fault Selection
  | _, [], last => .ok last
  | k, a :: as, _ => do
    let sel ← selectCoinsMinConf R view (choices k) nTargetValue a vCoins
    if sel.res then return sel else selectFirst nTargetValue vCoins (k + 1) as sel

/-- Nothing more is selected if the presets reach the target. -/
def selectRest (nTargetValue nValueFromPresetInputs : ℤ) (vCoins : List COutput) :
    Except Fault Selection :=
  if nTargetValue ≤ nValueFromPresetInputs then .ok ⟨true, ∅, 0⟩
  else do
    let nRest ← R.value (nTargetValue - nValueFromPresetInputs)
    selectFirst R view choices nRest vCoins 0 (attempts options) ⟨false, ∅, 0⟩

/-- The selection of other coins besides the presets. -/
def selectWithPresets (vAvailableCoins : List COutput) (nTargetValue : ℤ)
    (presets : Finset COutPoint × ℤ) : Except Fault Selection := do
  let vCoins := vAvailableCoins.filter fun output => output.outpoint ∉ presets.1
  let sel ← selectRest R view options choices nTargetValue presets.2 vCoins
  let nValueRet ← R.value (sel.nValueRet + presets.2)
  return ⟨sel.res, sel.setCoinsRet ∪ presets.1, nValueRet⟩

def selectAll (vAvailableCoins : List COutput) (nTargetValue : ℤ) : Except Fault Selection := do
  let acc ← gather R ((vAvailableCoins.filter COutput.fSpendable).map (valued view)) (∅, 0)
  return ⟨nTargetValue ≤ acc.2, acc.1, acc.2⟩

def presetInputs : Option CCoinControl → List COutPoint
  | none => []
  | some coinControl => coinControl.setSelected

/-- Coin control asks for its own inputs only. -/
def onlyPresets : Option CCoinControl → Bool
  | none => false
  | some coinControl => coinControl.hasSelected && !coinControl.fAllowOtherInputs

def selectCoins (vAvailableCoins : List COutput) (nTargetValue : ℤ)
    (coinControl : Option CCoinControl) : Except Fault Selection :=
  if onlyPresets coinControl then selectAll R view vAvailableCoins nTargetValue
  else do
    match ← presetCoins R view (presetInputs coinControl) ∅ 0 with
    | none => return ⟨false, ∅, 0⟩
    | some presets => selectWithPresets R view options choices vAvailableCoins nTargetValue presets

end

section

variable {R : AmountReading} {view : CoinView} {options : SelectOptions}
  {choices : ℕ → SelectionChoices} {nTargetValue : ℤ} {vCoins : List COutput} {sel : Selection}

theorem selectFirst_selects (h : Available view vCoins) (htarget : 0 < nTargetValue) {k : ℕ}
    {as : List Attempt} {last : Selection} (hlast : last.res = false)
    (hrun : selectFirst R view choices nTargetValue vCoins k as last = .ok sel)
    (hres : sel.res = true) : ∃ a, Selects view (eligibleCoins view a vCoins) nTargetValue sel := by
  induction as generalizing k last with
  | nil =>
    obtain rfl : last = sel := Except.ok.inj hrun
    exact absurd hres (by simp [hlast])
  | cons a as ih =>
    obtain ⟨sel', hcall, hrest⟩ := bind_eq_ok.1 hrun
    split_ifs at hrest with hsuccess
    · obtain rfl : sel' = sel := Except.ok.inj hrest
      exact ⟨a, (selectCoinsMinConf_eq_ok h htarget hcall).2 hres⟩
    · exact ih (by simpa using hsuccess) hrest

theorem selectRest_selects (h : Available view vCoins) {nPreset : ℤ}
    (hrun : selectRest R view options choices nTargetValue nPreset vCoins = .ok sel)
    (hres : sel.res = true) :
    Selects view (vCoins.map (valued view)) (nTargetValue - nPreset) sel := by
  unfold selectRest at hrun
  split_ifs at hrun with hreach
  · obtain rfl : ⟨true, ∅, 0⟩ = sel := Except.ok.inj hrun
    exact ⟨empty_subset _, rfl, by change _ ≤ (0 : ℤ); omega⟩
  · obtain ⟨nRest, hrest, hfirst⟩ := bind_eq_ok.1 hrun
    obtain ⟨-, rfl⟩ := AmountReading.value_eq_ok.1 hrest
    obtain ⟨a, hsub, hsum, hreaches⟩ := selectFirst_selects h (by omega) rfl hfirst hres
    refine ⟨hsub.trans (coinSet_mono ?_), hsum, hreaches⟩
    exact (filter_sublist.map _).subset

variable {presets : Finset COutPoint × ℤ} {coinControl : Option CCoinControl}

theorem presetCoins_eq_some {outpoints : List COutPoint} {start : Finset COutPoint} {nStart : ℤ}
    (hrun : presetCoins R view outpoints start nStart = .ok (some presets))
    (hnodup : outpoints.Nodup) (hnew : ∀ o ∈ outpoints, o ∉ start)
    (hstart : ∑ o ∈ start, view.nValue o = nStart) :
    presets.1 = start ∪ outpoints.toFinset ∧ ∑ o ∈ presets.1, view.nValue o = presets.2 := by
  induction outpoints generalizing start nStart with
  | nil =>
    obtain rfl : (start, nStart) = presets := Option.some.inj (Except.ok.inj hrun)
    exact ⟨by simp, hstart⟩
  | cons o outpoints ih =>
    rw [presetCoins] at hrun
    split_ifs at hrun with hown
    · obtain ⟨nValue, hvalue, hrest⟩ := bind_eq_ok.1 hrun
      obtain ⟨-, rfl⟩ := AmountReading.value_eq_ok.1 hvalue
      obtain ⟨hnotin, htail⟩ := nodup_cons.1 hnodup
      obtain ⟨hset, hsum⟩ := ih hrest htail
        (fun p hp hmem => by
          rcases mem_insert.1 hmem with rfl | hold
          · exact hnotin hp
          · exact hnew p (mem_cons_of_mem _ hp) hold)
        (by rw [sum_insert (hnew o mem_cons_self), hstart, add_comm])
      refine ⟨?_, hsum⟩
      rw [hset, toFinset_cons, union_insert, insert_union]
    · exact absurd (Except.ok.inj hrun) (by simp)

/-- Presets with other available coins: their sum, and that they reach the target. -/
structure SelectsWith (view : CoinView) (vCoins : List COutput) (presets : Finset COutPoint)
    (nTargetValue : ℤ) (sel : Selection) : Prop where
  contains : presets ⊆ sel.setCoinsRet
  subset : sel.setCoinsRet ⊆ coinSet (vCoins.map (valued view)) ∪ presets
  sum : ∑ o ∈ sel.setCoinsRet, view.nValue o = sel.nValueRet
  reaches : nTargetValue ≤ sel.nValueRet

theorem selectWithPresets_selects (h : Available view vCoins)
    (hpresets : ∑ o ∈ presets.1, view.nValue o = presets.2)
    (hrun : selectWithPresets R view options choices vCoins nTargetValue presets = .ok sel)
    (hres : sel.res = true) : SelectsWith view vCoins presets.1 nTargetValue sel := by
  obtain ⟨rest, hrest, hrun⟩ := bind_eq_ok.1 hrun
  obtain ⟨nValueRet, hvalue, hsel⟩ := bind_eq_ok.1 hrun
  obtain ⟨-, rfl⟩ := AmountReading.value_eq_ok.1 hvalue
  obtain rfl := Except.ok.inj hsel
  obtain ⟨hsub, hsum, hreach⟩ := selectRest_selects (h.sublist filter_sublist) hrest hres
  have hdisjoint : Disjoint rest.setCoinsRet presets.1 := by
    refine disjoint_left.2 fun o ho hpreset => ?_
    obtain ⟨c, hc, rfl⟩ := mem_coinSet.1 (hsub ho)
    obtain ⟨output, hout, rfl⟩ := mem_map.1 hc
    exact of_decide_eq_true (mem_filter.1 hout).2 hpreset
  refine ⟨subset_union_right, union_subset_union ?_ subset_rfl, ?_, ?_⟩
  · exact hsub.trans (coinSet_mono (filter_sublist.map _).subset)
  · rw [sum_union hdisjoint, hsum, hpresets]
  · change nTargetValue ≤ rest.nValueRet + presets.2
    omega

theorem presetInputs_nodup {coinControl : Option CCoinControl} :
    (presetInputs coinControl).Nodup := by
  cases coinControl with
  | none => exact nodup_nil
  | some coinControl => exact coinControl.nodup

theorem selectCoins_selects (h : Available view vCoins) (hother : onlyPresets coinControl = false)
    (hrun : selectCoins R view options choices vCoins nTargetValue coinControl = .ok sel)
    (hres : sel.res = true) :
    SelectsWith view vCoins (presetInputs coinControl).toFinset nTargetValue sel := by
  rw [selectCoins, if_neg (by simp [hother])] at hrun
  obtain ⟨presets, hpresets, hrun⟩ := bind_eq_ok.1 hrun
  cases presets with
  | none =>
    obtain rfl := Except.ok.inj hrun
    cases hres
  | some presets =>
    obtain ⟨hset, hsum⟩ := presetCoins_eq_some hpresets (presetInputs_nodup)
      (fun _ _ => notMem_empty _) rfl
    rw [empty_union] at hset
    exact hset ▸ selectWithPresets_selects h hsum hrun hres

theorem gather_inv {start acc : Finset COutPoint × ℤ} (hrun : gather R coins start = .ok acc) :
    acc = (start.1 ∪ coinSet coins, start.2 + total coins) := by
  induction coins generalizing start with
  | nil =>
    obtain rfl := Except.ok.inj hrun
    simp [coinSet, total]
  | cons c coins ih =>
    unfold gather at hrun ih
    rw [foldlM_cons] at hrun
    obtain ⟨next, hstep, hrest⟩ := bind_eq_ok.1 hrun
    obtain ⟨nValueRet, hvalue, hstep⟩ := bind_eq_ok.1 hstep
    obtain ⟨-, rfl⟩ := AmountReading.value_eq_ok.1 hvalue
    obtain rfl := Except.ok.inj hstep
    rw [ih hrest, total_cons, coinSet_cons, ← add_assoc, union_insert, insert_union]

theorem selectCoins_accounts (h : Available view vCoins)
    (hrun : selectCoins R view options choices vCoins nTargetValue coinControl = .ok sel)
    (hres : sel.res = true) :
    Selects view (vCoins.map (valued view) ++ (presetInputs coinControl).map fun o =>
      (view.nValue o, o)) nTargetValue sel := by
  have hset : coinSet (vCoins.map (valued view) ++ (presetInputs coinControl).map fun o =>
      (view.nValue o, o)) = coinSet (vCoins.map (valued view)) ∪
        (presetInputs coinControl).toFinset := by
    simp [coinSet, toFinset_append, Function.comp_def]
  cases honly : onlyPresets coinControl with
  | false =>
    obtain ⟨-, hsub, hsum, hreach⟩ := selectCoins_selects h honly hrun hres
    exact ⟨hset ▸ hsub, hsum, hreach⟩
  | true =>
    rw [selectCoins, if_pos honly] at hrun
    obtain ⟨acc, hgather, hsel⟩ := bind_eq_ok.1 hrun
    obtain rfl := gather_inv hgather
    obtain rfl := Except.ok.inj hsel
    have hcoins := (h.sublist (filter_sublist (p := COutput.fSpendable))).valuedCoins
    refine ⟨?_, ?_, of_decide_eq_true hres⟩
    · rw [hset, empty_union]
      exact (coinSet_mono (filter_sublist.map _).subset).trans subset_union_left
    · rw [empty_union, zero_add]
      exact hcoins.sum_coinSet

end

/-! ### When the selection is right -/

section

variable (view : CoinView) (choices : SelectionChoices) (nTargetValue : ℤ) (a : Attempt)
  (vCoins : List COutput)

/-- `SelectCoinsMinConf` returns, succeeds exactly if the eligible coins reach the target and then
has selected eligible coins that do. -/
def MinConfCorrect : Prop :=
  ∃ sel, selectCoinsMinConf .int64 view choices nTargetValue a vCoins = .ok sel ∧
    (sel.res = true ↔ nTargetValue ≤ ∑ o ∈ coinSet (eligibleCoins view a vCoins), view.nValue o) ∧
    (sel.res = true → Selects view (eligibleCoins view a vCoins) nTargetValue sel)

/-- `SelectCoins` with presets and other inputs allowed is right if it succeeds. -/
def PresetsCorrect : Prop :=
  ∀ (options : SelectOptions) (choices : ℕ → SelectionChoices) (coinControl : CCoinControl)
    (sel : Selection), coinControl.fAllowOtherInputs = true →
    selectCoins .int64 view options choices vCoins nTargetValue (some coinControl) = .ok sel →
    sel.res = true →
      coinControl.setSelected.toFinset ⊆ sel.setCoinsRet ∧
        ∑ o ∈ sel.setCoinsRet, view.nValue o = sel.nValueRet ∧ nTargetValue ≤ sel.nValueRet

abbrev shuffled : List ValuedCoin := eligibleCoins view a (choices.shuffle vCoins)

/-- The sums before the first coin of the target's value are amounts, and unless there is such a
coin or the coins below the margin reach the target, a larger coin can be kept. -/
def AmountsFit : Prop :=
  SumsFit .int64 nTargetValue (shuffled view choices a vCoins) 0 ∧
    ((∃ c ∈ shuffled view choices a vCoins, c.1 = nTargetValue) ∨
      nTargetValue ≤ total (lower nTargetValue (shuffled view choices a vCoins)) ∨
      larger nTargetValue (shuffled view choices a vCoins) = [] ∨
      ∃ c ∈ larger nTargetValue (shuffled view choices a vCoins), c.1 < MAX_AMOUNT)

variable {view choices nTargetValue a vCoins}

theorem lower_eq_self (h : larger nTargetValue coins = []) : lower nTargetValue coins = coins := by
  rw [larger, filter_eq_nil_iff] at h
  rw [lower, filter_eq_self]
  exact fun c hc => by simpa using h c hc

theorem fails_iff (h : Coins view coins) (hfits : nTargetValue ≤ MAX_AMOUNT) :
    (Fails nTargetValue coins ↔ ¬nTargetValue ≤ total coins) ↔
      ((∃ c ∈ coins, c.1 = nTargetValue) ∨ nTargetValue ≤ total (lower nTargetValue coins) ∨
        larger nTargetValue coins = [] ∨ ∃ c ∈ larger nTargetValue coins, c.1 < MAX_AMOUNT) := by
  have hlower : total (lower nTargetValue coins) ≤ total coins := h.total_le filter_sublist
  constructor
  · intro hiff
    by_contra hnone
    push Not at hnone
    obtain ⟨hne, hless, hlarger, hmax⟩ := hnone
    obtain ⟨c, hc⟩ := exists_mem_of_ne_nil _ hlarger
    have hreach := h.le_total (filter_sublist.subset hc)
    exact hiff.1 ⟨hne, hless, hmax⟩ (by have := hmax c hc; omega)
  · intro hgood
    constructor
    · rintro ⟨hne, hless, hmax⟩ hreach
      rcases hgood with ⟨c, hc, hexact⟩ | hlow | hnil | ⟨c, hc, hlt⟩
      · exact hne c hc hexact
      · omega
      · rw [lower_eq_self hnil] at hless
        omega
      · exact absurd (hmax c hc) (by omega)
    · intro hless
      refine ⟨fun c hc hexact => ?_, by omega, fun c hc => ?_⟩
      · exact hless (hexact ▸ h.le_total hc)
      · have hle := h.le_total (filter_sublist.subset hc)
        have hmargin : ¬c.1 < nTargetValue + MIN_CHANGE := by
          simpa [isLower] using (mem_filter.1 hc).2
        have : (0 : ℤ) ≤ MIN_CHANGE := by decide
        omega

theorem minConfCorrect_iff (h : Available view vCoins) (htarget : 0 < nTargetValue)
    (hfits : nTargetValue ≤ MAX_AMOUNT) :
    MinConfCorrect view choices nTargetValue a vCoins ↔
      AmountsFit view choices nTargetValue a vCoins := by
  have hperm := eligibleCoins_shuffle_perm view choices a vCoins
  have htotal : ∑ o ∈ coinSet (eligibleCoins view a vCoins), view.nValue o =
      total (shuffled view choices a vCoins) := by
    rw [h.eligibleCoins.sum_coinSet, total_perm hperm]
  -- what a call that returns says about the coins
  have hright {sel : Selection}
      (hrun : selectCoinsMinConf .int64 view choices nTargetValue a vCoins = .ok sel) :
      (sel.res = true ↔ nTargetValue ≤ total (shuffled view choices a vCoins)) ↔
        (Fails nTargetValue (shuffled view choices a vCoins) ↔
          ¬nTargetValue ≤ total (shuffled view choices a vCoins)) := by
    rw [← (selectCoinsMinConf_eq_ok h htarget hrun).1, ← Bool.not_eq_true, not_iff_not]
  have hfails := fails_iff (h.eligibleCoins.perm hperm) hfits
  constructor
  · rintro ⟨sel, hrun, hres, -⟩
    rw [htotal, hright hrun, hfails] at hres
    exact ⟨(selectCoinsMinConf_returns h htarget).1 ⟨sel, hrun⟩, hres⟩
  · rintro ⟨hfit, hgood⟩
    obtain ⟨sel, hrun⟩ := (selectCoinsMinConf_returns h htarget).2 hfit
    refine ⟨sel, hrun, ?_, (selectCoinsMinConf_eq_ok h htarget hrun).2⟩
    rw [htotal, hright hrun, hfails]
    exact hgood

/-- For different coins of positive values and every outcome of the random choices, both selections
are right exactly if the amounts fit. -/
theorem selection_correct_iff (view : CoinView) (choices : SelectionChoices) (nTargetValue : ℤ)
    (a : Attempt) (vCoins : List COutput) (h : Available view vCoins) (htarget : 0 < nTargetValue)
    (hfits : FitsInt64 nTargetValue) :
    (MinConfCorrect view choices nTargetValue a vCoins ∧
        PresetsCorrect view nTargetValue vCoins) ↔
      AmountsFit view choices nTargetValue a vCoins := by
  have hmax : nTargetValue ≤ MAX_AMOUNT := by
    obtain ⟨-, hlt⟩ := hfits
    unfold MAX_AMOUNT
    omega
  rw [minConfCorrect_iff h htarget hmax, and_iff_left_iff_imp]
  intro _ options choices coinControl sel hother hrun hres
  obtain ⟨hpresets, -, hsum, hreach⟩ :=
    selectCoins_selects h (by simp [onlyPresets, hother]) hrun hres
  exact ⟨hpresets, hsum, hreach⟩

/-- Coins in the order of the list, sorted by insertion, with one bit for all. -/
def listOrder (bit : Bool) : SelectionChoices where
  shuffle := id
  shuffle_perm := List.Perm.refl
  sort := List.insertionSort fun c d => c.1 ≤ d.1
  sort_perm := List.perm_insertionSort _
  sort_sorted vValue := List.pairwise_insertionSort _ vValue
  firstBits _ _ := bit
  secondBits _ _ := bit

def uniformView (nValue : ℤ) (fits : FitsInt64 nValue) : CoinView where
  nValue _ := nValue
  fits _ := fits
  hasOutput _ := true
  isFromMe _ := true
  withinChainLimit _ _ := true

def firstOutputs (k : ℕ) : List COutput :=
  (List.range k).map fun i => ⟨⟨0, UInt32.ofNat i⟩, 6, true⟩

theorem coin_pos : 0 < COIN := by decide

theorem coin_fits : FitsInt64 COIN := by decide

theorem maxMoney_fits : FitsInt64 MAX_MONEY := by decide

theorem maxAmount_fits : FitsInt64 MAX_AMOUNT := by decide

theorem available_threeCoins : Available (uniformView COIN coin_fits) (firstOutputs 3) :=
  ⟨by decide, fun _ _ => coin_pos⟩

theorem selection_correct_threeCoins :
    MinConfCorrect (uniformView COIN coin_fits) (listOrder true) 250000000 ⟨1, 6, 0⟩
        (firstOutputs 3) ∧
      PresetsCorrect (uniformView COIN coin_fits) 250000000 (firstOutputs 3) :=
  (selection_correct_iff (uniformView COIN coin_fits) (listOrder true) 250000000 ⟨1, 6, 0⟩
    (firstOutputs 3) available_threeCoins (by decide) (by decide)).2
    ⟨⟨fun _ => by decide, by decide⟩, .inr (.inl (by decide))⟩

/-- Ten coins of the largest valid amount: the sum of the coins below the margin is out of range. A
coin of the largest amount: it is not taken for a larger coin, and the selection fails. -/
theorem tenCoins_overflow :
    ((firstOutputs 10).map COutput.outpoint).Nodup ∧
      selectCoinsMinConf .int64 (uniformView MAX_MONEY maxMoney_fits) (listOrder true)
        (MAX_MONEY + 1) ⟨1, 6, 0⟩ (firstOutputs 10) = .error .signedOverflow ∧
      selectCoinsMinConf .int64 (uniformView MAX_AMOUNT maxAmount_fits) (listOrder true)
        1 ⟨1, 6, 0⟩ (firstOutputs 1) = .ok ⟨false, ∅, 0⟩ :=
  ⟨by decide, rfl, rfl⟩

end

end CoinSelection

end Coinyecoin
