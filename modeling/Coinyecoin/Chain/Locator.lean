import Coinyecoin.Chain.Index
import Coinyecoin.Consensus.Params
import Mathlib.Algebra.Order.Ring.Int

/-!
# Chains and locators

`CChain` is a branch of the block index as a vector with one entry a height.
`SetTip` rewrites it from the tip down to the first entry that is there already;
it always leaves the ancestors of the new tip (`ofTip`). A locator is the list of
the hashes of some ancestors of a block, the recent ones first, and
`FindForkInGlobalIndex` finds the first of them on its own chain.
-/

namespace Coinyecoin

open CBlockIndex BlockTree List Option

variable {n : ℕ}

structure CChain (Ptr : Type*) where
  vChain : List (Option Ptr)
deriving DecidableEq

namespace CChain

section

variable {Ptr : Type} [DecidableEq Ptr] (T : BlockTree Ptr) (C : CChain Ptr)

omit [DecidableEq Ptr] in
def get (nHeight : ℤ) : Option Ptr :=
  if nHeight < 0 ∨ nHeight ≥ C.vChain.length then none else C.vChain[nHeight.toNat]?.join

omit [DecidableEq Ptr] in
def genesis : Option Ptr := C.vChain.head?.join

omit [DecidableEq Ptr] in
def tip : Option Ptr := C.vChain.getLast?.join

omit [DecidableEq Ptr] in
def height : ℤ := C.vChain.length - 1

def contains (pindex : Ptr) : Bool := C.get (T.index pindex).nHeight = some pindex

def setTipLoop (vChain : List (Option Ptr)) (pindex : Ptr) : List (Option Ptr) :=
  if vChain[(T.index pindex).nHeight]? = some (some pindex) then vChain
  else
    match _h : (T.index pindex).pprev with
    | none => vChain.set (T.index pindex).nHeight (some pindex)
    | some pprev => setTipLoop (vChain.set (T.index pindex).nHeight (some pindex)) pprev
termination_by (T.index pindex).nHeight
decreasing_by
  have := T.height_child _ _ _h
  omega

omit [DecidableEq Ptr] in
def resize (vChain : List (Option Ptr)) (n : ℕ) : List (Option Ptr) :=
  (vChain ++ List.replicate (n - vChain.length) none).take n

def setTip : Option Ptr → CChain Ptr
  | none => ⟨[]⟩
  | some pindex => ⟨setTipLoop T (resize C.vChain ((T.index pindex).nHeight + 1)) pindex⟩

/-- The entry of a height below `pindex`, from the vector if `pindex` is in it. -/
def stepBack (pindex : Ptr) (nHeight : ℤ) : Except Fault (Option Ptr) :=
  if C.contains T pindex then .ok (C.get nHeight) else getAncestor T.index pindex nHeight

/-- The loop of `GetLocator`; doubling `nStep` overflows an `int` from 2 ^ 30 on. -/
def getLocatorLoop (getBlockHash : Ptr → uint256) :
    ℕ → ℕ → List uint256 → Option Ptr → Except Stop (List uint256)
  | 0, _, _, _ => .error .outOfFuel
  | _ + 1, _, vHave, none => .ok vHave
  | fuel + 1, nStep, vHave, some pindex =>
    let vHave := vHave ++ [getBlockHash pindex]
    if (T.index pindex).nHeight = 0 then .ok vHave
    else do
      let nHeight : ℤ := max ((T.index pindex).nHeight - nStep) 0
      let pindex ← orStop (C.stepBack T pindex nHeight)
      if vHave.length > 10 then
        if nStep * 2 < 2 ^ 31 then getLocatorLoop getBlockHash fuel (nStep * 2) vHave pindex
        else .error (.fault .signedOverflow)
      else getLocatorLoop getBlockHash fuel nStep vHave pindex

def getLocator (getBlockHash : Ptr → uint256) (fuel : ℕ) (pindex : Option Ptr) :
    Except Stop (List uint256) :=
  C.getLocatorLoop T getBlockHash fuel 1 [] (pindex.or C.tip)

def findForkLoop (pindex : Ptr) : Option Ptr :=
  if C.contains T pindex then some pindex
  else
    match _h : (T.index pindex).pprev with
    | none => none
    | some pprev => findForkLoop pprev
termination_by (T.index pindex).nHeight
decreasing_by
  have := T.height_child _ _ _h
  omega

def findFork : Option Ptr → Except Fault (Option Ptr)
  | none => .ok none
  | some pindex =>
    if (T.index pindex).nHeight > C.height then do
      let pindex ← getAncestor T.index pindex C.height
      return pindex.bind (C.findForkLoop T)
    else .ok (C.findForkLoop T pindex)

def findForkInGlobalIndex (mapBlockIndex : uint256 → Option Ptr) :
    List uint256 → Except Fault (Option Ptr)
  | [] => .ok C.genesis
  | hash :: vHave =>
    match mapBlockIndex hash with
    | none => findForkInGlobalIndex mapBlockIndex vHave
    | some pindex =>
      if C.contains T pindex then .ok (some pindex)
      else do
        let ancestor ← getAncestor T.index pindex C.height
        if ancestor = C.tip then return C.tip
        else findForkInGlobalIndex mapBlockIndex vHave

end

section

variable {Ptr : Type} {T : BlockTree Ptr}

theorem exists_ancestorAt (p : Ptr) (h : n ≤ (T.index p).nHeight) :
    ∃ q, ancestorAt T.index p n = some q ∧ IsAncestor T.index p q ∧ (T.index q).nHeight = n := by
  obtain ⟨q, hq, hanc, hheight⟩ := T.getAncestor_spec p n (Int.natCast_nonneg n) (by omega)
  exact ⟨q, ancestorAt_eq_some.2 ⟨hanc, hheight⟩, hanc, by omega⟩

theorem ancestorAt_of_isAncestor {p q : Ptr} (h : IsAncestor T.index p q)
    (hn : n ≤ (T.index q).nHeight) : ancestorAt T.index p n = ancestorAt T.index q n := by
  obtain ⟨r, hr, hanc, hheight⟩ := exists_ancestorAt q hn
  rw [hr, ancestorAt_eq_some]
  exact ⟨h.trans hanc, by omega⟩

theorem isAncestor_of_nHeight_le {p a b : Ptr} (ha : IsAncestor T.index p a)
    (hb : IsAncestor T.index p b) (hle : (T.index a).nHeight ≤ (T.index b).nHeight) :
    IsAncestor T.index b a := by
  have hat : ancestorAt T.index b (T.index a).nHeight = some a := by
    rw [← ancestorAt_of_isAncestor hb hle]
    exact ancestorAt_eq_some.2 ⟨ha, rfl⟩
  exact (ancestorAt_eq_some.1 hat).1

def ofTip (T : BlockTree Ptr) (t : Ptr) : CChain Ptr :=
  ⟨(List.range ((T.index t).nHeight + 1)).map fun n : ℕ => ancestorAt T.index t n⟩

theorem getElem?_ofTip (t : Ptr) (h : n ≤ (T.index t).nHeight) :
    (ofTip T t).vChain[n]? = some (ancestorAt T.index t n) := by
  simp [ofTip, getElem?_range (Nat.lt_succ_of_le h)]

theorem length_ofTip (t : Ptr) : (ofTip T t).vChain.length = (T.index t).nHeight + 1 := by
  simp [ofTip]

/-- Up to the height `k`, what is below an entry of the vector are its ancestors. -/
def ClosedTo (T : BlockTree Ptr) (vChain : List (Option Ptr)) (k : ℕ) : Prop :=
  ∀ n ≤ k, ∀ q, vChain[n]? = some (some q) →
    (T.index q).nHeight = n ∧ ∀ m ≤ n, vChain[m]? = some (ancestorAt T.index q m)

theorem getElem?_setTipLoop [DecidableEq Ptr] (vChain : List (Option Ptr)) (p : Ptr)
    (hlen : (T.index p).nHeight < vChain.length) (hclosed : ClosedTo T vChain (T.index p).nHeight) :
    (∀ m ≤ (T.index p).nHeight, (setTipLoop T vChain p)[m]? = some (ancestorAt T.index p m)) ∧
      ∀ m > (T.index p).nHeight, (setTipLoop T vChain p)[m]? = vChain[m]? := by
  induction hn : (T.index p).nHeight using Nat.strongRecOn generalizing p vChain with
  | _ n ih =>
    subst hn
    have hself : (vChain.set (T.index p).nHeight (some p))[(T.index p).nHeight]? =
        some (ancestorAt T.index p (T.index p).nHeight) := by
      rw [getElem?_set_self hlen, ancestorAt_eq_some.2 ⟨.refl, rfl⟩]
    rw [setTipLoop]
    split_ifs with hmet
    -- the vector has the block already, and with it the blocks below
    · exact ⟨(hclosed _ le_rfl p hmet).2, fun m _ => rfl⟩
    · split
      · rename_i hprev
        have hzero := T.height_genesis p hprev
        refine ⟨fun m hm => ?_, fun m hm => getElem?_set_ne (by omega)⟩
        obtain rfl : m = (T.index p).nHeight := by omega
        exact hself
      · rename_i pprev hprev
        have hheight := T.height_child p pprev hprev
        have hbelow : ∀ j ≤ (T.index pprev).nHeight,
            (vChain.set (T.index p).nHeight (some p))[j]? = vChain[j]? :=
          fun j hj => getElem?_set_ne (by omega)
        obtain ⟨hdown, hup⟩ := ih _ (by omega) (vChain.set (T.index p).nHeight (some p)) pprev
          (by rw [length_set]; omega)
          (fun j hj q hq => by
            rw [hbelow j hj] at hq
            obtain ⟨hqh, hqs⟩ := hclosed j (by omega) q hq
            exact ⟨hqh, fun i hi => (hbelow i (by omega)).trans (hqs i hi)⟩) rfl
        constructor
        · intro m hm
          rcases (show m = (T.index p).nHeight ∨ m ≤ (T.index pprev).nHeight by omega) with
            rfl | hm
          · rw [hup _ (by omega), hself]
          · rw [hdown m hm, ancestorAt_of_isAncestor (.single hprev) hm]
        · intro m hm
          rw [hup m (by omega), getElem?_set_ne (by omega)]

theorem setTip_eq [DecidableEq Ptr] {C : CChain Ptr} (hC : C = ⟨[]⟩ ∨ ∃ t, C = ofTip T t)
    (p : Ptr) : C.setTip T (some p) = ofTip T p := by
  have hlen : (resize C.vChain ((T.index p).nHeight + 1)).length = (T.index p).nHeight + 1 := by
    simp [resize]
    omega
  have hkept : ∀ n ≤ (T.index p).nHeight, ∀ x,
      (resize C.vChain ((T.index p).nHeight + 1))[n]? = some (some x) →
        C.vChain[n]? = some (some x) := by
    intro n hn x hx
    rw [resize, getElem?_take_of_lt (by omega), getElem?_append] at hx
    split_ifs at hx
    · exact hx
    · exact absurd (mem_of_getElem? hx) (by simp)
  have hold : ClosedTo T (resize C.vChain ((T.index p).nHeight + 1)) (T.index p).nHeight := by
    intro n hn q hq
    have hq := hkept n hn q hq
    rcases hC with rfl | ⟨t, rfl⟩
    · simp at hq
    · have hnt : n ≤ (T.index t).nHeight := by
        have := (List.getElem?_eq_some_iff.1 hq).1
        rw [length_ofTip] at this
        omega
      rw [getElem?_ofTip t hnt, some_inj, ancestorAt_eq_some] at hq
      have hqh : (T.index q).nHeight = n := by exact_mod_cast hq.2
      refine ⟨hqh, fun m hm => ?_⟩
      rw [resize, getElem?_take_of_lt (by omega), getElem?_append_left
        (by rw [length_ofTip]; omega), getElem?_ofTip t (by omega),
        ancestorAt_of_isAncestor hq.1 (by omega)]
  obtain ⟨hdown, hup⟩ := getElem?_setTipLoop _ p (by omega) hold
  refine congrArg CChain.mk (ext_getElem? fun m => ?_)
  rcases Nat.lt_or_ge (T.index p).nHeight m with hm | hm
  · rw [hup m hm, getElem?_eq_none (by omega)]
    exact (getElem?_eq_none (by simp; omega)).symm
  · rw [hdown m hm]
    exact (getElem?_ofTip p hm).symm

theorem foldl_setTip [DecidableEq Ptr] (calls : List (Option Ptr)) (C : CChain Ptr)
    (hC : C = ⟨[]⟩ ∨ ∃ t, C = ofTip T t) :
    calls.foldl (setTip T) C = ⟨[]⟩ ∨ ∃ t, calls.foldl (setTip T) C = ofTip T t := by
  induction calls generalizing C with
  | nil => exact hC
  | cons call calls ih =>
    refine ih _ ?_
    cases call with
    | none => exact .inl rfl
    | some p => exact .inr ⟨p, setTip_eq hC p⟩

variable (t : Ptr)

theorem get_ofTip (n : ℤ) : (ofTip T t).get n = ancestorAt T.index t n := by
  rw [get, length_ofTip]
  split_ifs with hrange
  · rw [ancestorAt, if_pos (by omega)]
  · rw [getElem?_ofTip t (by omega), join_some, Int.toNat_of_nonneg (by omega)]

theorem height_ofTip : (ofTip T t).height = (T.index t).nHeight := by
  rw [height, length_ofTip]
  omega

theorem tip_ofTip : (ofTip T t).tip = some t := by
  rw [tip, getLast?_eq_getElem?, length_ofTip, Nat.add_sub_cancel, getElem?_ofTip t le_rfl,
    join_some, ancestorAt_eq_some]
  exact ⟨.refl, rfl⟩

theorem genesis_ofTip : (ofTip T t).genesis = ancestorAt T.index t 0 := by
  rw [genesis, head?_eq_getElem?, getElem?_ofTip t (Nat.zero_le _), join_some, Nat.cast_zero]

variable [DecidableEq Ptr] {t}

theorem contains_ofTip {q : Ptr} : (ofTip T t).contains T q = true ↔ IsAncestor T.index t q := by
  rw [contains, decide_eq_true_iff, get_ofTip, ancestorAt_eq_some, and_iff_left rfl]

theorem contains_empty {q : Ptr} : (⟨[]⟩ : CChain Ptr).contains T q = false := by
  simp [contains, get]

end

section

variable {Ptr : Type} [DecidableEq Ptr] {T : BlockTree Ptr} {C : CChain Ptr}

theorem stepBack_eq (hC : C = ⟨[]⟩ ∨ ∃ t, C = ofTip T t) (p : Ptr)
    (hn : n ≤ (T.index p).nHeight) : C.stepBack T p n = .ok (ancestorAt T.index p n) := by
  rw [stepBack]
  split_ifs with hmem
  · rcases hC with rfl | ⟨t, rfl⟩
    · rw [contains_empty] at hmem
      exact nomatch hmem
    · rw [get_ofTip, ancestorAt_of_isAncestor (contains_ofTip.1 hmem) hn]
  · exact T.getAncestor_eq p n

structure Locates (T : BlockTree Ptr) (p : Ptr) (entries : List Ptr) : Prop where
  head : entries.head? = some p
  ancestor : ∀ q ∈ entries, IsAncestor T.index p q
  decreasing : entries.Pairwise fun a b => (T.index b).nHeight < (T.index a).nHeight
  last : ∃ g, entries.getLast? = some g ∧ (T.index g).pprev = none

omit [DecidableEq Ptr] in
theorem Locates.cons {p q : Ptr} {entries : List Ptr} (h : Locates T q entries)
    (hanc : IsAncestor T.index p q) (hlt : (T.index q).nHeight < (T.index p).nHeight) :
    Locates T p (p :: entries) where
  head := rfl
  ancestor := List.forall_mem_cons.2 ⟨.refl, fun r hr => hanc.trans (h.ancestor r hr)⟩
  decreasing := List.pairwise_cons.2 ⟨fun r hr =>
    ((T.walkBack_of_isAncestor (h.ancestor r hr)).1).trans_lt hlt, h.decreasing⟩
  last := by
    obtain ⟨g, hg, hroot⟩ := h.last
    refine ⟨g, ?_, hroot⟩
    rw [getLast?_cons, hg, getD_some]

/-- The steps doubled so far stay below the way the walk has come, so that the next one fits
an `int`. -/
theorem getLocatorLoop_eq (hC : C = ⟨[]⟩ ∨ ∃ t, C = ofTip T t) (getBlockHash : Ptr → uint256)
    (H : ℕ) (hH : H < 2 ^ 30) (fuel nStep : ℕ) (vHave : List uint256) (p : Ptr)
    (hfuel : (T.index p).nHeight < fuel) (hpos : 0 < nStep)
    (hstep : (T.index p).nHeight = 0 ∨ nStep + (T.index p).nHeight ≤ H + 1) :
    ∃ entries, C.getLocatorLoop T getBlockHash fuel nStep vHave (some p) =
      .ok (vHave ++ entries.map getBlockHash) ∧ Locates T p entries := by
  induction fuel generalizing nStep vHave p with
  | zero => exact absurd hfuel (Nat.not_lt_zero _)
  | succ fuel ih =>
    by_cases hzero : (T.index p).nHeight = 0
    · have hrun : C.getLocatorLoop T getBlockHash (fuel + 1) nStep vHave (some p) =
          .ok (vHave ++ [p].map getBlockHash) := by
        rw [getLocatorLoop, if_pos hzero, map_singleton]
      refine ⟨[p], hrun, rfl, ?_, ?_, p, rfl, ?_⟩
      · simp only [mem_singleton, forall_eq]
        exact .refl
      · exact pairwise_singleton _ _
      · cases hprev : (T.index p).pprev with
        | none => rfl
        | some q => exact absurd (T.height_child p q hprev) (by omega)
    · have hback : max (((T.index p).nHeight : ℤ) - nStep) 0 =
          (((T.index p).nHeight - nStep : ℕ) : ℤ) := by omega
      obtain ⟨q, hq, hanc, hheight⟩ :=
        exists_ancestorAt p (Nat.sub_le (T.index p).nHeight nStep)
      have hwalk := stepBack_eq hC p (Nat.sub_le (T.index p).nHeight nStep)
      rw [hq] at hwalk
      rw [getLocatorLoop, if_neg hzero]
      dsimp only
      rw [hback, hwalk]
      have hfits : nStep * 2 < 2 ^ 31 := by omega
      have hlt : (T.index q).nHeight < (T.index p).nHeight := by omega
      have hrest : ∀ nStep', nStep ≤ nStep' → nStep' ≤ nStep * 2 →
          ∃ entries, C.getLocatorLoop T getBlockHash fuel nStep' (vHave ++ [getBlockHash p])
            (some q) = .ok (vHave ++ (p :: entries).map getBlockHash) ∧ Locates T q entries := by
        intro nStep' hle hge
        obtain ⟨entries, hrun, hloc⟩ := ih nStep' (vHave ++ [getBlockHash p]) q (by omega)
          (by omega) (by omega)
        refine ⟨entries, ?_, hloc⟩
        rw [hrun, append_assoc, map_cons, singleton_append]
      change ∃ entries, (if (vHave ++ [getBlockHash p]).length > 10 then _ else _) = _ ∧ _
      split_ifs
      · obtain ⟨entries, hrun, hloc⟩ := hrest (nStep * 2) (by omega) le_rfl
        exact ⟨p :: entries, hrun, hloc.cons hanc hlt⟩
      · obtain ⟨entries, hrun, hloc⟩ := hrest nStep le_rfl (by omega)
        exact ⟨p :: entries, hrun, hloc.cons hanc hlt⟩

structure IsFork (T : BlockTree Ptr) (C : CChain Ptr) (p : Ptr) (fork : Option Ptr) : Prop where
  common : ∀ f ∈ fork, IsAncestor T.index p f ∧ C.contains T f = true
  highest : ∀ a, IsAncestor T.index p a → C.contains T a = true →
    ∃ f ∈ fork, (T.index a).nHeight ≤ (T.index f).nHeight

theorem findForkLoop_isFork (p : Ptr) : IsFork T C p (C.findForkLoop T p) := by
  induction hn : (T.index p).nHeight using Nat.strongRecOn generalizing p with
  | _ n ih =>
    rw [findForkLoop]
    split_ifs with hmem
    · refine ⟨fun f hf => ?_, fun a ha _ => ⟨p, rfl, (T.walkBack_of_isAncestor ha).1⟩⟩
      obtain rfl := mem_some_iff.1 hf
      exact ⟨.refl, hmem⟩
    · split
      · rename_i hprev
        refine ⟨nofun, fun a ha hat => ?_⟩
        rcases Relation.ReflTransGen.cases_head ha with rfl | ⟨q, hq, _⟩
        · exact absurd hat hmem
        · rw [hprev] at hq
          exact nomatch hq
      · rename_i pprev hprev
        have hheight := T.height_child p pprev hprev
        obtain ⟨hcommon, hhighest⟩ := ih _ (by omega) pprev rfl
        refine ⟨fun f hf => ⟨.head hprev (hcommon f hf).1, (hcommon f hf).2⟩, fun a ha hat => ?_⟩
        rcases Relation.ReflTransGen.cases_head ha with rfl | ⟨q, hq, hqa⟩
        · exact absurd hat hmem
        · rw [hprev, some_inj] at hq
          subst hq
          exact hhighest a hqa hat

theorem findFork_isFork (hC : C = ⟨[]⟩ ∨ ∃ t, C = ofTip T t) (p : Ptr) :
    ∃ fork, C.findFork T (some p) = .ok fork ∧ IsFork T C p fork := by
  rw [findFork]
  split_ifs with hgt
  · rw [T.getAncestor_eq]
    refine ⟨_, rfl, ?_⟩
    rcases hC with rfl | ⟨t, rfl⟩
    · rw [ancestorAt, if_pos (.inr (by simp [height]))]
      refine ⟨fun f hf => ?_, fun a _ hat => ?_⟩
      · cases hf
      · simp [contains_empty] at hat
    · rw [height_ofTip] at hgt ⊢
      obtain ⟨q, hq, hanc, hheight⟩ :=
        exists_ancestorAt p (show (T.index t).nHeight ≤ (T.index p).nHeight by omega)
      obtain ⟨hcommon, hhighest⟩ := findForkLoop_isFork (T := T) (C := ofTip T t) q
      rw [hq, bind_some]
      refine ⟨fun f hf => ⟨hanc.trans (hcommon f hf).1, (hcommon f hf).2⟩, fun a ha hat => ?_⟩
      -- a block on the chain is not above its tip
      have hle := (T.walkBack_of_isAncestor (contains_ofTip.1 hat)).1
      exact hhighest a (isAncestor_of_nHeight_le ha hanc (by omega)) hat
  · exact ⟨_, rfl, findForkLoop_isFork p⟩

theorem findForkInGlobalIndex_eq {getBlockHash : Ptr → uint256}
    {mapBlockIndex : uint256 → Option Ptr} (hmap : ∀ q, mapBlockIndex (getBlockHash q) = some q)
    {p t g : Ptr} (hgp : IsAncestor T.index p g) (hgt : ancestorAt T.index t 0 = some g)
    (entries : List Ptr) (hanc : ∀ q ∈ entries, IsAncestor T.index p q)
    (hdec : entries.Pairwise fun a b => (T.index b).nHeight < (T.index a).nHeight) :
    ∃ f, (ofTip T t).findForkInGlobalIndex T mapBlockIndex (entries.map getBlockHash) =
        .ok (some f) ∧
      (ofTip T t).contains T f = true ∧ IsAncestor T.index p f ∧
        ∀ a ∈ entries, (ofTip T t).contains T a = true →
          (T.index a).nHeight ≤ (T.index f).nHeight := by
  induction entries with
  | nil =>
    refine ⟨g, ?_, contains_ofTip.2 (ancestorAt_eq_some.1 hgt).1, hgp, nofun⟩
    rw [map_nil, findForkInGlobalIndex, genesis_ofTip, hgt]
  | cons e entries ih =>
    obtain ⟨hep, hanc⟩ := forall_mem_cons.1 hanc
    obtain ⟨hbelow, hdec⟩ := pairwise_cons.1 hdec
    rw [map_cons, findForkInGlobalIndex, hmap]
    dsimp only
    split_ifs with hmem
    · exact ⟨e, rfl, hmem, hep, forall_mem_cons.2
        ⟨fun _ => le_rfl, fun a ha _ => (hbelow a ha).le⟩⟩
    · rw [T.getAncestor_eq, height_ofTip, tip_ofTip]
      change ∃ f, (if ancestorAt T.index e (T.index t).nHeight = some t then _ else _) = _ ∧ _
      split_ifs with htip
      · refine ⟨t, rfl, contains_ofTip.2 .refl, hep.trans (ancestorAt_eq_some.1 htip).1, ?_⟩
        exact fun a _ ha => (T.walkBack_of_isAncestor (contains_ofTip.1 ha)).1
      · obtain ⟨f, hrun, hon, hpf, hhigh⟩ := ih hanc hdec
        exact ⟨f, hrun, hon, hpf, forall_mem_cons.2 ⟨fun h => absurd h hmem, hhigh⟩⟩

end

theorem mem_ofTip {Ptr : Type} {T : BlockTree Ptr} {t : Ptr} {x : Option Ptr} :
    x ∈ (ofTip T t).vChain ↔ ∃ q, x = some q ∧ IsAncestor T.index t q := by
  constructor
  · intro hx
    obtain ⟨n, hn, rfl⟩ := mem_map.1 hx
    obtain ⟨q, hq, hanc, _⟩ := exists_ancestorAt (T := T) t
      (Nat.lt_succ_iff.1 (mem_range.1 hn))
    exact ⟨q, hq, hanc⟩
  · rintro ⟨q, rfl, hanc⟩
    have hq := getElem?_ofTip (T := T) t (T.walkBack_of_isAncestor hanc).1
    rw [ancestorAt_eq_some.2 ⟨hanc, rfl⟩] at hq
    exact mem_of_getElem? hq

theorem ancestorAt_zero {Ptr : Type} {T : BlockTree Ptr}
    (hgenesis : ∀ p q, (T.index p).pprev = none → (T.index q).pprev = none → p = q) (p t : Ptr) :
    ∃ g, IsAncestor T.index p g ∧ ancestorAt T.index t 0 = some g := by
  have hroot : ∀ q, (T.index q).nHeight = 0 → (T.index q).pprev = none := by
    intro q hq
    cases hprev : (T.index q).pprev with
    | none => rfl
    | some r => exact absurd (T.height_child q r hprev) (by omega)
  obtain ⟨g, hg, hanc, hheight⟩ := exists_ancestorAt (T := T) p (Nat.zero_le _)
  obtain ⟨g', hg', _, hheight'⟩ := exists_ancestorAt (T := T) t (Nat.zero_le _)
  obtain rfl := hgenesis g g' (hroot g hheight) (hroot g' hheight')
  exact ⟨g, hanc, hg'⟩

/-- For every chain that calls of `SetTip` produce and every block: the chain has exactly the
ancestors of its tip, the locator of the block lists ancestors of it down to the genesis block,
`FindFork` finds its highest ancestor on the chain, and, unless the chain is empty,
`FindForkInGlobalIndex` finds from the locator an ancestor on the chain that no block of the
locator on the chain is above. -/
theorem locator_finds_fork {Ptr : Type} [DecidableEq Ptr] (T : BlockTree Ptr)
    (hgenesis : ∀ p q, (T.index p).pprev = none → (T.index q).pprev = none → p = q)
    (hheight : ∀ p, (T.index p).nHeight < 2 ^ 30) (getBlockHash : Ptr → uint256)
    (mapBlockIndex : uint256 → Option Ptr) (hmap : ∀ q, mapBlockIndex (getBlockHash q) = some q)
    (calls : List (Option Ptr)) (C : CChain Ptr) (hC : calls.foldl (setTip T) ⟨[]⟩ = C) (p : Ptr)
    (fuel : ℕ) (hfuel : (T.index p).nHeight < fuel) :
    (∀ x, x ∈ C.vChain ↔ ∃ q, x = some q ∧ ∃ t ∈ C.tip, IsAncestor T.index t q) ∧
    (∀ q, C.contains T q = true ↔ ∃ t ∈ C.tip, IsAncestor T.index t q) ∧
    (∃ entries, C.getLocator T getBlockHash fuel (some p) = .ok (entries.map getBlockHash) ∧
      Locates T p entries ∧
      (C.vChain ≠ [] →
        ∃ f, C.findForkInGlobalIndex T mapBlockIndex (entries.map getBlockHash) = .ok (some f) ∧
          C.contains T f = true ∧ IsAncestor T.index p f ∧
          ∀ a ∈ entries, C.contains T a = true → (T.index a).nHeight ≤ (T.index f).nHeight)) ∧
    ∃ fork, C.findFork T (some p) = .ok fork ∧ IsFork T C p fork := by
  have hform := foldl_setTip (T := T) calls ⟨[]⟩ (.inl rfl)
  rw [hC] at hform
  obtain ⟨entries, hrun, hloc⟩ := getLocatorLoop_eq hform getBlockHash (T.index p).nHeight
    (hheight p) fuel 1 [] p hfuel Nat.one_pos (.inr (by omega))
  refine ⟨?_, ?_, ⟨entries, hrun, hloc, fun hne => ?_⟩, findFork_isFork hform p⟩
  · rcases hform with rfl | ⟨t, rfl⟩
    · simp [tip]
    · simp [mem_ofTip, tip_ofTip]
  · rcases hform with rfl | ⟨t, rfl⟩
    · simp [tip, contains_empty]
    · simp [contains_ofTip, tip_ofTip]
  · rcases hform with rfl | ⟨t, rfl⟩
    · exact absurd rfl hne
    · obtain ⟨g, hgp, hgt⟩ := ancestorAt_zero hgenesis p t
      exact findForkInGlobalIndex_eq hmap hgp hgt entries hloc.ancestor hloc.decreasing

inductive Branch where
  | genesis
  | left
  | right
deriving DecidableEq

def twoBranches : BlockTree Branch where
  index p := match p with
    | .genesis => ⟨none, none, 0, 1, 0, 0⟩
    | _ => ⟨some .genesis, none, 1, 1, 0, 0⟩
  height_genesis p h := by
    cases p with
    | genesis => rfl
    | left => cases h
    | right => cases h
  height_child p q h := by
    cases p with
    | genesis => cases h
    | left =>
      cases h
      rfl
    | right =>
      cases h
      rfl
  skip_ancestor p s h := by cases p <;> cases h

def branchHash : Branch → uint256
  | .genesis => 0
  | .left => 1
  | .right => 2

def branchIndex (hash : uint256) : Option Branch :=
  if hash = 0 then some .genesis else if hash = 1 then some .left else some .right

theorem locator_finds_fork_twoBranches :
    ∃ entries, (setTip twoBranches ⟨[]⟩ (some .left)).getLocator twoBranches branchHash 2
      (some .right) = .ok (entries.map branchHash) ∧ Locates twoBranches .right entries := by
  have hgenesis : ∀ p q, (twoBranches.index p).pprev = none →
      (twoBranches.index q).pprev = none → p = q := by
    intro p q hp hq
    cases p <;> cases hp
    cases q <;> cases hq
    rfl
  have hheight : ∀ p, (twoBranches.index p).nHeight < 2 ^ 30 := by
    intro p
    cases p <;> decide
  have hmap : ∀ q, branchIndex (branchHash q) = some q := by
    intro q
    cases q <;> rfl
  obtain ⟨entries, hrun, hloc, _⟩ := (locator_finds_fork twoBranches hgenesis hheight
    branchHash branchIndex hmap [some .left] _ rfl .right 2 (by decide)).2.2.1
  exact ⟨entries, hrun, hloc⟩

/-- On the chain before the first `SetTip`, the locator of the genesis block leads to the null
pointer. -/
theorem findForkInGlobalIndex_empty :
    (⟨[]⟩ : CChain Branch).getLocator twoBranches branchHash 1 (some .genesis) =
      .ok [branchHash .genesis] ∧
    (⟨[]⟩ : CChain Branch).findForkInGlobalIndex twoBranches branchIndex [branchHash .genesis] =
      .ok none :=
  ⟨rfl, rfl⟩

end CChain

end Coinyecoin
