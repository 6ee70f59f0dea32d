import Mathlib.Algebra.Order.Group.Nat
import Mathlib.Data.Finset.Card
import Mathlib.Data.List.Range

/-!
# Slots that are filled or free

A row of slots is a list of optional values. `freeFrom c l` lists the places of
the free slots of `l`, the first slot being place `c`. Filling one key of a
family changes how many of them are filled by at most one.
-/

namespace Foundation

open List

section

variable {α : Type}

def freeFrom : ℕ → List (Option α) → List ℕ
  | _, [] => []
  | c, none :: l => c :: freeFrom (c + 1) l
  | c, some _ :: l => freeFrom (c + 1) l

theorem length_freeFrom (c : ℕ) (l : List (Option α)) :
    (freeFrom c l).length + l.countP Option.isSome = l.length := by
  induction l generalizing c with
  | nil => rfl
  | cons slot l ih =>
    cases slot with
    | none =>
      rw [freeFrom, length_cons, countP_cons_of_neg (by simp), length_cons, ← ih (c + 1)]
      omega
    | some a =>
      rw [freeFrom, countP_cons_of_pos (by simp), length_cons, ← ih (c + 1)]
      omega

theorem freeFrom_eq_filter {p : ℕ → Bool} {c : ℕ} {l : List (Option α)}
    (hp : ∀ n slot, l[n]? = some slot → p (c + n) = slot.isNone) :
    freeFrom c l = (List.range' c l.length).filter p := by
  induction l generalizing c with
  | nil => rfl
  | cons slot l ih =>
    have htail : freeFrom (c + 1) l = (List.range' (c + 1) l.length).filter p := by
      refine ih fun n other hn => ?_
      rw [Nat.add_right_comm]
      exact hp (n + 1) other hn
    have hhead : p c = slot.isNone := hp 0 slot rfl
    rw [length_cons, range'_succ, filter_cons, ← htail, hhead]
    cases slot with
    | none => simp [freeFrom]
    | some a => simp [freeFrom]

variable {κ : Type} [DecidableEq κ]

theorem countP_change {p q : κ → Bool} {k : κ} {l : List κ} (hnodup : l.Nodup) (hk : k ∈ l)
    (hother : ∀ k' ∈ l, k' ≠ k → q k' = p k') :
    l.countP q + (p k).toNat = l.countP p + (q k).toNat := by
  induction l with
  | nil => exact absurd hk not_mem_nil
  | cons a l ih =>
    obtain ⟨hnotMem, hnodup⟩ := nodup_cons.1 hnodup
    rw [countP_cons, countP_cons]
    by_cases ha : a = k
    · subst ha
      have hsame : l.countP q = l.countP p := by
        refine countP_congr fun b hb => ?_
        rw [hother b (mem_cons_of_mem a hb) fun heq => hnotMem (heq ▸ hb)]
      rw [hsame]
      cases p a <;> cases q a <;> simp
    · have hmem : k ∈ l := (mem_cons.1 hk).resolve_left (Ne.symm ha)
      have hrest := ih hnodup hmem fun b hb => hother b (mem_cons_of_mem a hb)
      rw [hother a mem_cons_self ha]
      omega

end

end Foundation
