import Coinyecoin.Basic.Fault
import Mathlib.Order.Nat

/-!
# The block index

An entry of the block index is reached through a pointer; `Ptr` is the type of
the pointers to live entries, and an index is what they point to. `BlockTree`
is an index in which heights grow by one along `pprev` and every `pskip` that
is set points where `BuildSkip` points it. `getAncestor` walks back along both
kinds of pointers.
-/

namespace Coinyecoin

structure CBlockIndex (Ptr : Type*) where
  pprev : Option Ptr
  pskip : Option Ptr
  nHeight : ℕ
  nVersion : Int32
  nTime : UInt32
  nBits : UInt32

namespace CBlockIndex

def getBlockTime {Ptr : Type*} (block : CBlockIndex Ptr) : ℤ := block.nTime.toNat

def invertLowestOne (n : ℕ) : ℕ := n &&& (n - 1)

def getSkipHeight (height : ℕ) : ℕ :=
  if height < 2 then 0
  else if height % 2 = 1 then invertLowestOne (invertLowestOne (height - 1)) + 1
  else invertLowestOne height

theorem invertLowestOne_le (n : ℕ) : invertLowestOne n ≤ n - 1 := Nat.and_le_right

theorem getSkipHeight_lt {height : ℕ} (h : 0 < height) : getSkipHeight height < height := by
  unfold getSkipHeight
  split_ifs with h₂ hodd
  · exact h
  · have h₃ := invertLowestOne_le (height - 1)
    have h₄ := invertLowestOne_le (invertLowestOne (height - 1))
    omega
  · have h₃ := invertLowestOne_le height
    omega

/-- The test that decides whether the walk follows `pskip`: it lands exactly, or
it stays above the target and `pprev->pskip` is not better than `pskip->pprev`. -/
def followSkip (height heightWalk : ℕ) : Bool :=
  let heightSkip := getSkipHeight heightWalk
  let heightSkipPrev := getSkipHeight (heightWalk - 1)
  heightSkip = height ∨
    (heightSkip > height ∧ ¬ (heightSkipPrev + 2 < heightSkip ∧ heightSkipPrev ≥ height))

theorem le_getSkipHeight_of_followSkip {height heightWalk : ℕ}
    (h : followSkip height heightWalk = true) : height ≤ getSkipHeight heightWalk := by
  simp only [followSkip, decide_eq_true_eq] at h
  omega

section

variable {Ptr : Type*} (index : Ptr → CBlockIndex Ptr)

/-- The loop of `GetAncestor`, at the entry `pindexWalk` of height
`heightWalk`. -/
def getAncestorLoop (height : ℕ) (pindexWalk : Ptr) (heightWalk : ℕ) : Except Fault Ptr :=
  if heightWalk > height then
    match (index pindexWalk).pskip, followSkip height heightWalk with
    | some pskip, true => getAncestorLoop height pskip (getSkipHeight heightWalk)
    | _, _ =>
      match (index pindexWalk).pprev with
      | some pprev => getAncestorLoop height pprev (heightWalk - 1)
      | none => .error (.assertFailed "pindexWalk->pprev")
  else .ok pindexWalk
termination_by heightWalk
decreasing_by
  · exact getSkipHeight_lt (by omega)
  · omega

/-- `CBlockIndex::GetAncestor`; `none` is the null pointer. -/
def getAncestor (pindex : Ptr) (height : ℤ) : Except Fault (Option Ptr) :=
  if height > (index pindex).nHeight ∨ height < 0 then .ok none
  else do
    let pindexWalk ← getAncestorLoop index height.toNat pindex (index pindex).nHeight
    return some pindexWalk

def IsAncestor (p q : Ptr) : Prop :=
  Relation.ReflTransGen (fun a b => (index a).pprev = some b) p q

def walkBack : ℕ → Ptr → Option Ptr
  | 0, p => some p
  | n + 1, p => (index p).pprev.bind (walkBack n)

def ancestorAt (p : Ptr) (height : ℤ) : Option Ptr :=
  if height > (index p).nHeight ∨ height < 0 then none
  else walkBack index ((index p).nHeight - height.toNat) p

end

section

variable {Ptr : Type*} [DecidableEq Ptr]

def buildSkip (index : Ptr → CBlockIndex Ptr) (p : Ptr) : Except Fault (Ptr → CBlockIndex Ptr) :=
  match (index p).pprev with
  | none => .ok index
  | some pprev => do
    let pskip ← getAncestor index pprev (getSkipHeight (index p).nHeight)
    return Function.update index p { index p with pskip := pskip }

def buildSkips (index : Ptr → CBlockIndex Ptr) (calls : List Ptr) :
    Except Fault (Ptr → CBlockIndex Ptr) :=
  calls.foldlM buildSkip index

end

end CBlockIndex

open CBlockIndex

/-- A block index whose heights and skip pointers are those the node builds. -/
structure BlockTree (Ptr : Type*) where
  index : Ptr → CBlockIndex Ptr
  height_genesis : ∀ p, (index p).pprev = none → (index p).nHeight = 0
  height_child : ∀ p q, (index p).pprev = some q → (index p).nHeight = (index q).nHeight + 1
  skip_ancestor : ∀ p s, (index p).pskip = some s →
    IsAncestor index p s ∧ (index s).nHeight = getSkipHeight (index p).nHeight

namespace BlockTree

variable {Ptr : Type*} (T : BlockTree Ptr)

theorem exists_pprev {p : Ptr} (h : 0 < (T.index p).nHeight) : ∃ q, (T.index p).pprev = some q := by
  cases hq : (T.index p).pprev with
  | none => exact absurd (T.height_genesis p hq) h.ne'
  | some q => exact ⟨q, rfl⟩

theorem getAncestorLoop_spec (height : ℕ) (p : Ptr) (h : height ≤ (T.index p).nHeight) :
    ∃ q, getAncestorLoop T.index height p (T.index p).nHeight = .ok q ∧
      IsAncestor T.index p q ∧ (T.index q).nHeight = height := by
  induction hn : (T.index p).nHeight using Nat.strongRecOn generalizing p with
  | _ n ih =>
    subst hn
    by_cases hgt : (T.index p).nHeight > height
    · rw [getAncestorLoop, if_pos hgt]
      split
      · rename_i pskip hskip hfollow
        obtain ⟨hanc, hheight⟩ := T.skip_ancestor p pskip hskip
        have hlt := getSkipHeight_lt (show 0 < (T.index p).nHeight by omega)
        have hle := le_getSkipHeight_of_followSkip hfollow
        obtain ⟨q, hq, hq', hqh⟩ :=
          ih _ (by omega) pskip (by omega) rfl
        refine ⟨q, ?_, hanc.trans hq', hqh⟩
        rw [← hheight]
        exact hq
      · obtain ⟨pprev, hprev⟩ := T.exists_pprev (show 0 < (T.index p).nHeight by omega)
        have hheight := T.height_child p pprev hprev
        obtain ⟨q, hq, hq', hqh⟩ := ih _ (by omega) pprev (by omega) rfl
        refine ⟨q, ?_, Relation.ReflTransGen.head hprev hq', hqh⟩
        rw [hprev, hheight]
        simpa using hq
    · have heq : (T.index p).nHeight = height := by omega
      rw [getAncestorLoop, if_neg hgt]
      exact ⟨p, rfl, Relation.ReflTransGen.refl, heq⟩

theorem getAncestor_spec (p : Ptr) (height : ℤ) (h₀ : 0 ≤ height)
    (h : height ≤ (T.index p).nHeight) :
    ∃ q, getAncestor T.index p height = .ok (some q) ∧
      IsAncestor T.index p q ∧ ((T.index q).nHeight : ℤ) = height := by
  obtain ⟨q, hq, hanc, hheight⟩ := T.getAncestorLoop_spec height.toNat p (by omega)
  refine ⟨q, ?_, hanc, by omega⟩
  have hcond : ¬ (height > (T.index p).nHeight ∨ height < 0) := by omega
  simp [getAncestor, hcond, hq]

theorem walkBack_of_isAncestor {p q : Ptr} (h : IsAncestor T.index p q) :
    (T.index q).nHeight ≤ (T.index p).nHeight ∧
      walkBack T.index ((T.index p).nHeight - (T.index q).nHeight) p = some q := by
  induction h using Relation.ReflTransGen.head_induction_on with
  | refl => exact ⟨le_refl _, by rw [Nat.sub_self, walkBack]⟩
  | head hprev _ ih =>
    have hheight := T.height_child _ _ hprev
    refine ⟨by omega, ?_⟩
    rw [hheight, Nat.succ_sub ih.1, walkBack, hprev]
    exact ih.2

theorem getAncestor_eq (p : Ptr) (height : ℤ) :
    getAncestor T.index p height = .ok (ancestorAt T.index p height) := by
  by_cases hrange : height > (T.index p).nHeight ∨ height < 0
  · rw [getAncestor, ancestorAt, if_pos hrange, if_pos hrange]
  · obtain ⟨q, hq, hanc, hheight⟩ := T.getAncestor_spec p height (by omega) (by omega)
    have hback := (T.walkBack_of_isAncestor hanc).2
    rw [hq, ancestorAt, if_neg hrange, ← hback, ← hheight, Int.toNat_natCast]

variable {T} in
theorem ancestorAt_eq_some {p q : Ptr} {height : ℤ} :
    ancestorAt T.index p height = some q ↔
      IsAncestor T.index p q ∧ ((T.index q).nHeight : ℤ) = height := by
  constructor
  · intro h
    by_cases hrange : height > (T.index p).nHeight ∨ height < 0
    · rw [ancestorAt, if_pos hrange] at h
      cases h
    · obtain ⟨r, hr, hanc, hheight⟩ := T.getAncestor_spec p height (by omega) (by omega)
      rw [T.getAncestor_eq, Except.ok.injEq, h, Option.some_inj] at hr
      subst hr
      exact ⟨hanc, hheight⟩
  · rintro ⟨hanc, rfl⟩
    obtain ⟨hle, hback⟩ := T.walkBack_of_isAncestor hanc
    rw [ancestorAt, if_neg (by omega), Int.toNat_natCast, hback]

def SamePaths (index index' : Ptr → CBlockIndex Ptr) : Prop :=
  ∀ p, (index' p).pprev = (index p).pprev ∧ (index' p).nHeight = (index p).nHeight

theorem SamePaths.ancestorAt_eq {index index' : Ptr → CBlockIndex Ptr} (h : SamePaths index index')
    (p : Ptr) {height : ℤ} : ancestorAt index' p height = ancestorAt index p height := by
  have hback : ∀ n q, walkBack index' n q = walkBack index n q := by
    intro n
    induction n with
    | zero => exact fun q => rfl
    | succ n ih => exact fun q => by rw [walkBack, walkBack, (h q).1, funext ih]
  rw [ancestorAt, ancestorAt, (h p).2, hback]

theorem buildSkip_returns [DecidableEq Ptr] (p : Ptr) :
    ∃ T' : BlockTree Ptr, buildSkip T.index p = .ok T'.index ∧ SamePaths T.index T'.index := by
  cases hprev : (T.index p).pprev with
  | none => exact ⟨T, by rw [buildSkip, hprev], fun q => ⟨rfl, rfl⟩⟩
  | some pprev =>
    have hheight := T.height_child p pprev hprev
    have hlt := getSkipHeight_lt (show 0 < (T.index p).nHeight by omega)
    obtain ⟨s, hs, hanc, hskip⟩ := T.getAncestor_spec pprev (getSkipHeight (T.index p).nHeight)
      (Int.natCast_nonneg _) (by omega)
    have hsame : SamePaths T.index
        (Function.update T.index p { T.index p with pskip := some s }) := fun q => by
      by_cases hq : q = p
      · subst hq
        simp
      · simp [hq]
    have hpaths : IsAncestor (Function.update T.index p { T.index p with pskip := some s }) =
        IsAncestor T.index := by
      unfold IsAncestor
      simp only [hsame _]
    have hcall : buildSkip T.index p =
        .ok (Function.update T.index p { T.index p with pskip := some s }) := by
      rw [buildSkip, hprev]
      dsimp only
      rw [hs]
      rfl
    refine ⟨⟨Function.update T.index p { T.index p with pskip := some s }, ?_, ?_, ?_⟩, hcall,
      hsame⟩
    · exact fun q hq => (hsame q).2.trans (T.height_genesis q ((hsame q).1.symm.trans hq))
    · intro q r hq
      rw [(hsame q).2, (hsame r).2]
      exact T.height_child q r ((hsame q).1.symm.trans hq)
    · intro q r hr
      rw [hpaths, (hsame q).2, (hsame r).2]
      by_cases hq : q = p
      · subst hq
        obtain rfl : s = r := by simpa using hr
        exact ⟨Relation.ReflTransGen.head hprev hanc, by exact_mod_cast hskip⟩
      · exact T.skip_ancestor q r (by simpa [hq] using hr)

theorem buildSkips_return [DecidableEq Ptr] (calls : List Ptr) :
    ∃ T' : BlockTree Ptr, buildSkips T.index calls = .ok T'.index ∧
      SamePaths T.index T'.index := by
  induction calls generalizing T with
  | nil => exact ⟨T, rfl, fun q => ⟨rfl, rfl⟩⟩
  | cons p calls ih =>
    obtain ⟨T₁, hfirst, hsame⟩ := T.buildSkip_returns p
    obtain ⟨T₂, hrest, hsame₂⟩ := ih T₁
    refine ⟨T₂, ?_, fun q => ⟨(hsame₂ q).1.trans (hsame q).1, (hsame₂ q).2.trans (hsame q).2⟩⟩
    rw [buildSkips, List.foldlM_cons, hfirst]
    exact hrest

/-- Whichever entries `BuildSkip` was called on, in whichever order, `GetAncestor` returns the
entry of the height that `pprev` leads to. -/
theorem getAncestor_built [DecidableEq Ptr] {index : Ptr → CBlockIndex Ptr}
    (hgenesis : ∀ p, (index p).pprev = none → (index p).nHeight = 0)
    (hchild : ∀ p q, (index p).pprev = some q → (index p).nHeight = (index q).nHeight + 1)
    (hfresh : ∀ p, (index p).pskip = none) (calls : List Ptr) :
    ∃ built, buildSkips index calls = .ok built ∧
      ∀ p height, getAncestor built p height = .ok (ancestorAt index p height) := by
  obtain ⟨T, hbuilt, hsame⟩ :=
    buildSkips_return ⟨index, hgenesis, hchild, fun p s hs => by simp [hfresh p] at hs⟩ calls
  exact ⟨T.index, hbuilt, fun p height => by
    rw [T.getAncestor_eq p height, hsame.ancestorAt_eq p]⟩

def threeEntries (p : Fin 3) : CBlockIndex (Fin 3) :=
  ⟨if p = 2 then some 1 else if p = 1 then some 0 else none, none, p, 1, 0, 0⟩

theorem getAncestor_built_three : ∃ built, buildSkips threeEntries [0, 1, 2] = .ok built ∧
    ∀ p height, getAncestor built p height = .ok (ancestorAt threeEntries p height) :=
  getAncestor_built (by decide) (by decide) (by decide) [0, 1, 2]

end BlockTree

end Coinyecoin
