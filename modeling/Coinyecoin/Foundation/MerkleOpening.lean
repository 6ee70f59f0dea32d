import Coinyecoin.Foundation.MerkleBinding
import Mathlib.Data.List.Nodup
import Mathlib.Data.Nat.Log

/-!
# Opening a Merkle tree from the top

An `Opening` of height `h` shows some of the leaves of a tree that is taken to
be `h` levels high: a subtree is hidden behind its hash, is a leaf that is
shown, or is opened into its children, of which the right one may be missing.
If its value is a node of the tree over `l`, then what it shows are the nodes
of `l` that lie `h` levels below. These are leaves only if the height is right.
-/

namespace Foundation

open List

namespace MerkleTree

section

variable {α : Type} (H : α → α → α)

theorem lt_length_levelUp (l : List α) (m level : ℕ) :
    m < (levelUp H level l).length ↔ m * 2 ^ level < l.length := by
  induction level generalizing m with
  | zero => rw [levelUp_zero, pow_zero, mul_one]
  | succ level ih =>
    have hhalf : m < ((levelUp H level l).length + 1) / 2 ↔
        2 * m < (levelUp H level l).length := by omega
    have hpow : 2 * m * 2 ^ level = m * 2 ^ (level + 1) := by ring
    rw [levelUp_succ, length_pairUp, hhalf, ih, hpow]

theorem eq_clog_of_top {l : List α} {depth : ℕ} {top : α} (hbelow : Below H l depth)
    (htop : levelUp H depth l = [top]) : depth = Nat.clog 2 l.length := by
  apply le_antisymm
  · by_contra hlt
    have hfew := (Nat.clog_le_iff_le_pow one_lt_two).1 (le_refl (Nat.clog 2 l.length))
    have hmany := (lt_length_levelUp H l 1 _).1 (hbelow _ (not_le.1 hlt))
    omega
  · have hone : ¬ 1 < (levelUp H depth l).length := by simp [htop]
    rw [lt_length_levelUp, one_mul, not_lt] at hone
    exact Nat.clog_le_of_le_pow hone

end

section

variable {α : Type} {H : α → α → α}

theorem getElem?_siblings (l : List α) (pos : ℕ) :
    (siblings l)[pos]? = l[2 * pos]?.map fun a => (a, l[2 * pos + 1]?.getD a) := by
  induction l using siblings.induct generalizing pos with
  | case1 => simp [siblings]
  | case2 a => cases pos with
      | zero => simp [siblings]
      | succ pos => simp [siblings, Nat.mul_succ]
  | case3 a b l ih => cases pos with
      | zero => simp [siblings]
      | succ pos => simpa [siblings, Nat.mul_succ] using ih pos

theorem getElem?_levelUp_succ {l : List α} {level pos : ℕ} {v : α}
    (hv : (levelUp H (level + 1) l)[pos]? = some v) :
    ∃ a, (levelUp H level l)[2 * pos]? = some a ∧
      (a, (levelUp H level l)[2 * pos + 1]?.getD a) ∈ siblings (levelUp H level l) ∧
      H a ((levelUp H level l)[2 * pos + 1]?.getD a) = v := by
  rw [levelUp_succ, pairUp_eq_map, getElem?_map, getElem?_siblings] at hv
  cases ha : (levelUp H level l)[2 * pos]? with
  | none => simp [ha] at hv
  | some a =>
    refine ⟨a, rfl, ?_, by simpa [ha] using hv⟩
    exact mem_of_getElem? (by rw [getElem?_siblings, ha]; rfl)

theorem fst_siblings_sublist (l : List α) : ((siblings l).map Prod.fst).Sublist l := by
  induction l using siblings.induct with
  | case1 => exact List.Sublist.slnil
  | case2 a => exact List.Sublist.refl _
  | case3 a b l ih => exact (ih.cons b).cons_cons a

theorem nodup_levelUp {l : List α} (hl : l.Nodup)
    (hinj : (hashed H l).InjOn (Function.uncurry H)) {level : ℕ} (hbelow : Below H l level) :
    (levelUp H level l).Nodup := by
  induction level with
  | zero => exact hl
  | succ level ih =>
    have hpairs := List.Nodup.of_map Prod.fst
      ((ih (hbelow.mono H (Nat.le_succ level))).sublist (fst_siblings_sublist _))
    rw [levelUp_succ, pairUp_eq_map]
    exact hpairs.map_on fun p hp q hq heq => hinj ⟨level, hbelow, hp⟩ ⟨level, hbelow, hq⟩ heq

end

/-- No other pair has the hash of a pair that is hashed for the root of `l`, and no leaf is the
hash of a pair. -/
structure Binds {α : Type} (H : α → α → α) (l : List α) : Prop where
  inj : ∀ p ∈ hashed H l, ∀ q, Function.uncurry H q = Function.uncurry H p → q = p
  not_leaf : ∀ leaf ∈ l, ∀ q, Function.uncurry H q ≠ leaf

inductive Opening (α : Type) : ℕ → Type
  | hidden {h : ℕ} (hash : α) : Opening α h
  | leaf (hash : α) : Opening α 0
  | single {h : ℕ} (left : Opening α h) : Opening α (h + 1)
  | pair {h : ℕ} (left right : Opening α h) : Opening α (h + 1)

namespace Opening

variable {α : Type} {h : ℕ}

@[simp] def value (H : α → α → α) : {h : ℕ} → Opening α h → α
  | _, hidden hash => hash
  | _, leaf hash => hash
  | _, single left => H (left.value H) (left.value H)
  | _, pair left right => H (left.value H) (right.value H)

@[simp] def shown : {h : ℕ} → ℕ → Opening α h → List (α × ℕ)
  | _, _, hidden _ => []
  | _, pos, leaf hash => [(hash, pos)]
  | _, pos, single left => left.shown (pos * 2)
  | _, pos, pair left right => left.shown (pos * 2) ++ right.shown (pos * 2 + 1)

@[simp] def ChildrenDiffer (H : α → α → α) : {h : ℕ} → Opening α h → Prop
  | _, hidden _ => True
  | _, leaf _ => True
  | _, single left => left.ChildrenDiffer H
  | _, pair left right =>
    right.value H ≠ left.value H ∧ left.ChildrenDiffer H ∧ right.ChildrenDiffer H

variable {H : α → α → α} {l : List α} {level pos : ℕ}

section

variable (hbind : Binds H l)
include hbind

theorem eq_children (hbelow : Below H l level) {a b : α}
    (hv : (levelUp H level l)[pos]? = some (H a b)) :
    ∃ below, level = below + 1 ∧ (levelUp H below l)[pos * 2]? = some a ∧
      (levelUp H below l)[pos * 2 + 1]?.getD a = b := by
  cases level with
  | zero => exact absurd rfl (hbind.not_leaf _ (mem_of_getElem? hv) (a, b))
  | succ level =>
    obtain ⟨c, hc, hmem, hhash⟩ := getElem?_levelUp_succ hv
    have hpair := hbind.inj _ ⟨level, hbelow, hmem⟩ (a, b) hhash.symm
    obtain ⟨rfl, hb⟩ := Prod.mk.inj hpair
    rw [mul_comm pos 2]
    exact ⟨level, rfl, hc, hb.symm⟩

theorem shown_sound (hbelow : Below H l level) (o : Opening α h) (hdiffer : o.ChildrenDiffer H)
    (hv : (levelUp H level l)[pos]? = some (o.value H)) :
    ∀ m ∈ o.shown pos, ∃ below, level = h + below ∧ (levelUp H below l)[m.2]? = some m.1 := by
  induction o generalizing level pos with
  | hidden hash => simp
  | leaf hash =>
    intro m hm
    obtain rfl := mem_singleton.1 hm
    exact ⟨level, (Nat.zero_add level).symm, hv⟩
  | single left ih =>
    obtain ⟨level, rfl, hleft, -⟩ := eq_children hbind hbelow hv
    intro m hm
    obtain ⟨below, rfl, hnode⟩ := ih (hbelow.mono H (Nat.le_succ level)) hdiffer hleft m hm
    exact ⟨below, by omega, hnode⟩
  | pair left right ihl ihr =>
    obtain ⟨level, rfl, hleft, hright⟩ := eq_children hbind hbelow hv
    have hlower := hbelow.mono H (Nat.le_succ level)
    -- the right child is there, since it is not the left one again
    have hright' : (levelUp H level l)[pos * 2 + 1]? = some (right.value H) := by
      cases hnode : (levelUp H level l)[pos * 2 + 1]? with
      | none =>
        rw [hnode] at hright
        exact absurd hright.symm hdiffer.1
      | some b =>
        rw [hnode] at hright
        exact congrArg some hright
    intro m hm
    rcases mem_append.1 hm with hm | hm
    · obtain ⟨below, rfl, hnode⟩ := ihl hlower hdiffer.2.1 hleft m hm
      exact ⟨below, by omega, hnode⟩
    · obtain ⟨below, rfl, hnode⟩ := ihr hlower hdiffer.2.2 hright' m hm
      exact ⟨below, by omega, hnode⟩

variable (o : Opening α h)

theorem shown_sound_of_root (hdiffer : o.ChildrenDiffer H) (hroot : root H l = some (o.value H)) :
    ∀ m ∈ o.shown 0, ∃ below, Nat.clog 2 l.length = h + below ∧
      (levelUp H below l)[m.2]? = some m.1 := by
  have hne : l ≠ [] := by
    rintro rfl
    exact nomatch (root_nil H).symm.trans hroot
  obtain ⟨depth, top, hbelow, htop, htop'⟩ := exists_top H hne
  obtain rfl : top = o.value H := Option.some_inj.1 (htop'.symm.trans hroot)
  rw [← eq_clog_of_top H hbelow htop]
  exact shown_sound hbind hbelow o hdiffer (by rw [htop]; rfl)

theorem not_mem_of_getElem?_levelUp {v : α}
    (hv : (levelUp H (level + 1) l)[pos]? = some v) : v ∉ l := by
  obtain ⟨a, -, -, hhash⟩ := getElem?_levelUp_succ hv
  exact fun hmem => hbind.not_leaf v hmem (a, _) hhash

theorem shown_iff_of_root (hdiffer : o.ChildrenDiffer H) (hroot : root H l = some (o.value H)) :
    (∀ m ∈ o.shown 0, l[m.2]? = some m.1) ↔ o.shown 0 = [] ∨ Nat.clog 2 l.length ≤ h := by
  have hshown := shown_sound_of_root hbind o hdiffer hroot
  constructor
  · intro hleaves
    by_contra hneither
    obtain ⟨hsome, hhigh⟩ := not_or.1 hneither
    obtain ⟨m, hm⟩ := exists_mem_of_ne_nil _ hsome
    obtain ⟨below, hheight, hnode⟩ := hshown m hm
    obtain ⟨below, rfl⟩ : ∃ k, below = k + 1 := ⟨below - 1, by omega⟩
    exact not_mem_of_getElem?_levelUp hbind hnode (mem_of_getElem? (hleaves m hm))
  · rintro (hnone | hle) m hm
    · rw [hnone] at hm
      exact absurd hm not_mem_nil
    · obtain ⟨below, hheight, hnode⟩ := hshown m hm
      obtain rfl : below = 0 := by omega
      exact hnode

end

end Opening

end MerkleTree

end Foundation
