import Coinyecoin.Foundation.MerkleTree
import Mathlib.Data.Set.Function

/-!
# What a Merkle root binds

Two lists of leaves with one root are equal, provided that no full pair of
either tree has equal siblings, that the pair hash is injective on the pairs
that were hashed, and that no leaf is itself the hash of such a pair. The last
subtree of a level may be closed by hashes of an element with itself; `Doubled`
tells it from the subtrees whose leaves are all there.
-/

namespace Foundation

open List

namespace MerkleTree

variable {level : ℕ} {α : Type} (H : α → α → α)

section

def siblings : List α → List (α × α)
  | [] => []
  | [a] => [(a, a)]
  | a :: b :: l => (a, b) :: siblings l

def fullPairs : List α → List (α × α)
  | [] => []
  | [_] => []
  | a :: b :: l => (a, b) :: fullPairs l

theorem pairUp_eq_map (l : List α) : pairUp H l = (siblings l).map (Function.uncurry H) := by
  induction l using siblings.induct with
  | case1 => rfl
  | case2 a => rfl
  | case3 a b l ih => simp [pairUp, siblings, ih]

theorem pairs_eq_map (l : List α) : pairs H l = (fullPairs l).map (Function.uncurry H) := by
  induction l using fullPairs.induct with
  | case1 => rfl
  | case2 a => rfl
  | case3 a b l ih => simp [pairs, fullPairs, ih]

theorem pairsDiffer_iff (l : List α) : PairsDiffer l ↔ ∀ p ∈ fullPairs l, p.1 ≠ p.2 := by
  induction l using fullPairs.induct with
  | case1 => simp [PairsDiffer, fullPairs]
  | case2 a => simp [PairsDiffer, fullPairs]
  | case3 a b l ih => simp [PairsDiffer, fullPairs, ih]

theorem fullPairs_subset (l t : List α) : fullPairs l ⊆ siblings (l ++ t) := by
  induction l using fullPairs.induct with
  | case1 => simp [fullPairs]
  | case2 a => simp [fullPairs]
  | case3 a b l ih =>
    rw [fullPairs, cons_append, cons_append, siblings]
    exact cons_subset_cons _ ih

variable {l : List α} {a : α} {m : List α}

theorem snd_mem_of_mem_fullPairs {p : α × α} (hp : p ∈ fullPairs l) : p.2 ∈ l := by
  induction l using fullPairs.induct with
  | case1 => exact nomatch hp
  | case2 a => exact nomatch hp
  | case3 a b l ih =>
    rcases mem_cons.1 hp with rfl | hp
    · simp
    · exact mem_cons_of_mem _ (mem_cons_of_mem _ (ih hp))

theorem mem_of_leftover (ha : leftover l = some a) : a ∈ l := by
  rw [leftover_eq] at ha
  split_ifs at ha
  exact mem_of_getLast? ha

theorem leftover_mem_siblings (ha : leftover l = some a) (t : List α) :
    (a, t.headD a) ∈ siblings (l ++ t) := by
  induction l using leftover.induct with
  | case1 => cases ha
  | case2 b =>
    obtain rfl : b = a := by simpa [leftover] using ha
    cases t with
    | nil => simp [siblings]
    | cons c t => simp [siblings]
  | case3 b c l ih =>
    rw [cons_append, cons_append, siblings]
    exact mem_cons_of_mem _ (ih ha)

theorem eq_of_siblings_eq (hl : PairsDiffer l) (hm : PairsDiffer m)
    (h : siblings l = siblings m) : l = m := by
  induction l using siblings.induct generalizing m with
  | case1 =>
    rcases m with - | ⟨b, - | ⟨c, m⟩⟩
    · rfl
    · exact nomatch h
    · exact nomatch h
  | case2 a =>
    rcases m with - | ⟨b, - | ⟨c, m⟩⟩
    · exact nomatch h
    · simpa [siblings] using h
    · obtain ⟨⟨rfl, rfl⟩, -⟩ : (a = b ∧ a = c) ∧ _ := by simpa [siblings] using h
      exact absurd rfl hm.1
  | case3 a b l ih =>
    rcases m with - | ⟨c, - | ⟨d, m⟩⟩
    · exact nomatch h
    · obtain ⟨⟨rfl, rfl⟩, -⟩ : (a = c ∧ b = c) ∧ _ := by simpa [siblings] using h
      exact absurd rfl hl.1
    · obtain ⟨⟨rfl, rfl⟩, htail⟩ : (a = c ∧ b = d) ∧ siblings l = siblings m := by
        simpa [siblings] using h
      rw [ih hl.2 hm.2 htail]

theorem map_inj_of_injOn {β : Type} {f : α → β} {Q : Set α} (hinj : Q.InjOn f)
    (hl : ∀ a ∈ l, a ∈ Q) (hm : ∀ a ∈ m, a ∈ Q) (h : l.map f = m.map f) : l = m := by
  induction l generalizing m with
  | nil => exact (map_eq_nil_iff.1 h.symm).symm
  | cons a l ih =>
    cases m with
    | nil => exact nomatch h
    | cons b m =>
      rw [map_cons, map_cons, List.cons.injEq] at h
      rw [hinj (hl a mem_cons_self) (hm b mem_cons_self) h.1,
        ih (fun c hc => hl c (mem_cons_of_mem _ hc))
          (fun c hc => hm c (mem_cons_of_mem _ hc)) h.2]

end

def levelUp (level : ℕ) (l : List α) : List α := (pairUp H)^[level] l

theorem levelUp_zero (l : List α) : levelUp H 0 l = l := rfl

theorem levelUp_succ (level : ℕ) (l : List α) :
    levelUp H (level + 1) l = pairUp H (levelUp H level l) :=
  Function.iterate_succ_apply' _ _ _

/-- All levels up to the root have more than one element before it. -/
def Below (l : List α) (level : ℕ) : Prop := ∀ k < level, 1 < (levelUp H k l).length

def hashed (l : List α) : Set (α × α) :=
  {p | ∃ level, Below H l (level + 1) ∧ p ∈ siblings (levelUp H level l)}

theorem exists_top {l : List α} (hl : l ≠ []) :
    ∃ depth top, Below H l depth ∧ levelUp H depth l = [top] ∧ root H l = some top := by
  induction hlen : l.length using Nat.strong_induction_on generalizing l with
  | h n ih =>
    by_cases hone : 1 < l.length
    · have hshort : (pairUp H l).length < n := by
        rw [length_pairUp]
        omega
      have hne : pairUp H l ≠ [] := by
        rw [← length_pos_iff, length_pairUp]
        omega
      obtain ⟨depth, top, hbelow, htop, hroot⟩ := ih _ hshort hne rfl
      refine ⟨depth + 1, top, fun k hk => ?_, htop, (root_pairUp H hone).trans hroot⟩
      cases k with
      | zero => exact hone
      | succ k => exact hbelow k (by omega)
    · obtain ⟨a, rfl⟩ : ∃ a, l = [a] := by
        have hpos := length_pos_iff.2 hl
        exact length_eq_one_iff.1 (by omega)
      exact ⟨0, a, fun k hk => absurd hk (Nat.not_lt_zero k), rfl, root_singleton H a⟩

theorem Below.mono {l : List α} {k level : ℕ} (h : Below H l level) (hk : k ≤ level) :
    Below H l k := fun j hj => h j (by omega)

theorem levelUp_ne_nil {l : List α} (hl : l ≠ []) (level : ℕ) : levelUp H level l ≠ [] := by
  induction level with
  | zero => exact hl
  | succ level ih =>
    rw [levelUp_succ, ← length_pos_iff, length_pairUp]
    have hpos := length_pos_iff.2 ih
    omega

section

/-- A hash of an element with itself stands somewhere on the right edge of the subtree. -/
inductive Doubled (Q : Set (α × α)) : α → Prop
  | base {a : α} : (a, a) ∈ Q → Doubled Q (H a a)
  | right {a h : α} : (a, h) ∈ Q → Doubled Q h → Doubled Q (H a h)

variable {H} {Q : Set (α × α)} {l : List α}

theorem levelUp_eq_append (hQ : hashed H l ⊆ Q) (hbelow : Below H l level) :
    ∃ t, levelUp H level l = (pairs H)^[level] l ++ t ∧
      (t = [] ∨ ∃ z, t = [z] ∧ Doubled H Q z) := by
  induction level with
  | zero => exact ⟨[], by simp [levelUp_zero], .inl rfl⟩
  | succ level ih =>
    obtain ⟨t, hlevel, ht⟩ := ih (hbelow.mono H (Nat.le_succ level))
    have hmem : ∀ p ∈ siblings ((pairs H)^[level] l ++ t), p ∈ Q := fun p hp =>
      hQ ⟨level, hbelow, hlevel ▸ hp⟩
    rw [levelUp_succ, hlevel, Function.iterate_succ_apply']
    cases hleft : leftover ((pairs H)^[level] l) with
    | none =>
      rcases ht with rfl | ⟨z, rfl, hz⟩
      · exact ⟨[], by simp [pairUp_eq, hleft], .inl rfl⟩
      · have hlast : leftover ((pairs H)^[level] l ++ [z]) = some z := by
          rw [leftover_append, hleft]
          rfl
        have hpair := leftover_mem_siblings hlast []
        rw [append_nil] at hpair
        exact ⟨[H z z], pairUp_append_of_none H hleft z, .inr ⟨_, rfl, .base (hmem _ hpair)⟩⟩
    | some a =>
      have hpair := hmem _ (leftover_mem_siblings hleft t)
      rcases ht with rfl | ⟨z, rfl, hz⟩
      · exact ⟨[H a a], by simp [pairUp_eq, hleft], .inr ⟨_, rfl, .base hpair⟩⟩
      · exact ⟨[H a z], pairUp_append_of_some H hleft z, .inr ⟨_, rfl, .right hpair hz⟩⟩

section

variable (hQ : hashed H l ⊆ Q) (hinj : Q.InjOn (Function.uncurry H))
  (hleaf : ∀ leaf ∈ l, ∀ p ∈ Q, Function.uncurry H p ≠ leaf) (hdiffer : SiblingsDiffer H l)
include hQ hinj hleaf hdiffer

theorem not_doubled (hbelow : Below H l level) {x : α} (hx : x ∈ (pairs H)^[level] l) :
    ¬ Doubled H Q x := by
  induction level generalizing x with
  | zero =>
    intro hdoubled
    cases hdoubled with
    | base hmem => exact hleaf _ hx _ hmem rfl
    | right hmem _ => exact hleaf _ hx _ hmem rfl
  | succ level ih =>
    have hlower := hbelow.mono H (Nat.le_succ level)
    obtain ⟨t, hlevel, -⟩ := levelUp_eq_append hQ hlower
    rw [Function.iterate_succ_apply', pairs_eq_map, mem_map] at hx
    obtain ⟨⟨a, b⟩, hpair, rfl⟩ := hx
    have hne : a ≠ b := (pairsDiffer_iff _).1 (hdiffer level) _ hpair
    have hmem : (a, b) ∈ Q := hQ ⟨level, hbelow, hlevel ▸ fullPairs_subset _ t hpair⟩
    have hright := ih hlower (snd_mem_of_mem_fullPairs hpair)
    generalize hvalue : Function.uncurry H (a, b) = value
    intro hdoubled
    cases hdoubled with
    | base hother =>
      have heq := Prod.ext_iff.1 (hinj hmem hother hvalue)
      exact hne (heq.1.trans heq.2.symm)
    | right hother hdoubled =>
      have heq := Prod.ext_iff.1 (hinj hmem hother hvalue)
      exact hright (heq.2 ▸ hdoubled)

theorem pairsDiffer_levelUp (hbelow : Below H l level) : PairsDiffer (levelUp H level l) := by
  obtain ⟨t, hlevel, ht⟩ := levelUp_eq_append hQ hbelow
  rw [hlevel]
  rcases ht with rfl | ⟨z, rfl, hz⟩
  · rw [append_nil]
    exact hdiffer level
  · refine (pairsDiffer_append _ z).2 ⟨hdiffer level, fun a ha heq => ?_⟩
    exact not_doubled hQ hinj hleaf hdiffer hbelow (mem_of_leftover ha) (heq ▸ hz)

end

end

section

variable {H} {Q : Set (α × α)} {l m : List α}

theorem head?_eq_of_pairUp (hinj : Q.InjOn (Function.uncurry H)) {x y : List α} (hx : x ≠ [])
    (hy : y ≠ []) (hxQ : ∀ p ∈ siblings x, p ∈ Q) (hyQ : ∀ p ∈ siblings y, p ∈ Q)
    (h : (pairUp H x).head? = (pairUp H y).head?) : x.head? = y.head? := by
  have hfirst : ∀ {z : List α}, z ≠ [] →
      ∃ p, (siblings z).head? = some p ∧ z.head? = some p.1 := by
    intro z hz
    rcases z with - | ⟨a, - | ⟨b, z⟩⟩
    · exact absurd rfl hz
    · exact ⟨(a, a), rfl, rfl⟩
    · exact ⟨(a, b), rfl, rfl⟩
  obtain ⟨p, hp, hpx⟩ := hfirst hx
  obtain ⟨q, hq, hqy⟩ := hfirst hy
  rw [pairUp_eq_map, pairUp_eq_map, head?_map, head?_map, hp, hq, Option.map_some,
    Option.map_some, Option.some_inj] at h
  rw [hpx, hqy, hinj (hxQ p (mem_of_head? hp)) (hyQ q (mem_of_head? hq)) h]

section

variable (hl : l ≠ []) (hm : m ≠ []) (hlQ : hashed H l ⊆ Q) (hmQ : hashed H m ⊆ Q)
  (hinj : Q.InjOn (Function.uncurry H))
include hl hm hlQ hmQ hinj

theorem depth_le
    (hleaf : ∀ leaf ∈ l, ∀ p ∈ Q, Function.uncurry H p ≠ leaf) {d e : ℕ} (hd : Below H l d)
    (he : Below H m e) (htop : levelUp H d l = levelUp H e m) : e ≤ d := by
  by_contra hlt
  have hdown : ∀ k ≤ d, (levelUp H (d - k) l).head? = (levelUp H (e - k) m).head? := by
    intro k
    induction k with
    | zero => exact fun _ => congrArg List.head? htop
    | succ k ih =>
      intro hk
      have hstep := ih (by omega)
      have hdk : d - k = d - (k + 1) + 1 := by omega
      have hek : e - k = e - (k + 1) + 1 := by omega
      rw [hdk, hek, levelUp_succ, levelUp_succ] at hstep
      refine head?_eq_of_pairUp hinj (levelUp_ne_nil H hl _) (levelUp_ne_nil H hm _)
        (fun p hp => hlQ ⟨_, hd.mono H (by omega), hp⟩)
        (fun p hp => hmQ ⟨_, he.mono H (by omega), hp⟩) hstep
  have hhead := hdown d le_rfl
  have hlevel : e - d = e - d - 1 + 1 := by omega
  rw [Nat.sub_self, levelUp_zero, hlevel, levelUp_succ, pairUp_eq_map, head?_map] at hhead
  obtain ⟨leaf, hfirst⟩ : ∃ leaf, l.head? = some leaf := by
    rcases l with - | ⟨leaf, l⟩
    · exact absurd rfl hl
    · exact ⟨leaf, rfl⟩
  rw [hfirst, eq_comm, Option.map_eq_some_iff] at hhead
  obtain ⟨p, hp, hvalue⟩ := hhead
  exact hleaf leaf (mem_of_head? hfirst) p
    (hmQ ⟨_, he.mono H (by omega), mem_of_head? hp⟩) hvalue

theorem eq_of_root_eq (hleafl : ∀ leaf ∈ l, ∀ p ∈ Q, Function.uncurry H p ≠ leaf)
    (hleafm : ∀ leaf ∈ m, ∀ p ∈ Q, Function.uncurry H p ≠ leaf)
    (hdl : SiblingsDiffer H l) (hdm : SiblingsDiffer H m) (hroot : root H l = root H m) :
    l = m := by
  obtain ⟨d, top, hd, htopl, hrootl⟩ := exists_top H hl
  obtain ⟨e, top', he, htopm, hrootm⟩ := exists_top H hm
  obtain rfl : top = top' := by
    rw [hrootl, hrootm] at hroot
    exact Option.some_inj.1 hroot
  have htop : levelUp H d l = levelUp H e m := htopl.trans htopm.symm
  obtain rfl : d = e := le_antisymm (depth_le hm hl hmQ hlQ hinj hleafm he hd htop.symm)
    (depth_le hl hm hlQ hmQ hinj hleafl hd he htop)
  have hdown : ∀ k ≤ d, levelUp H (d - k) l = levelUp H (d - k) m := by
    intro k
    induction k with
    | zero => exact fun _ => htop
    | succ k ih =>
      intro hk
      have hstep := ih (by omega)
      have hdk : d - k = d - (k + 1) + 1 := by omega
      rw [hdk, levelUp_succ, levelUp_succ, pairUp_eq_map, pairUp_eq_map] at hstep
      refine eq_of_siblings_eq
        (pairsDiffer_levelUp hlQ hinj hleafl hdl (hd.mono H (by omega)))
        (pairsDiffer_levelUp hmQ hinj hleafm hdm (he.mono H (by omega)))
        (map_inj_of_injOn hinj (fun p hp => hlQ ⟨_, hd.mono H (by omega), hp⟩)
          (fun p hp => hmQ ⟨_, he.mono H (by omega), hp⟩) hstep)
  have hleaves := hdown d le_rfl
  rwa [Nat.sub_self] at hleaves

end

end

end MerkleTree

end Foundation
