import Mathlib.Data.List.Nodup
import Mathlib.Algebra.Order.Ring.Nat

/-!
# Tables

A table is a list of keys with their values. What a lookup finds, and how many
rows have a property, after the value of one key is replaced or its row removed.
-/

namespace Foundation

open List

namespace Table

variable {κ β : Type} [DecidableEq κ]

def setAt (key : κ) (b : β) : List (κ × β) → List (κ × β)
  | [] => []
  | row :: table => if row.1 = key then (key, b) :: table else row :: setAt key b table

def eraseAt (key : κ) : List (κ × β) → List (κ × β)
  | [] => []
  | row :: table => if row.1 = key then table else row :: eraseAt key table

def nextKey (key : κ) : List (κ × β) → Option κ
  | [] => none
  | row :: table => if row.1 = key then table.head?.map Prod.fst else nextKey key table

omit [DecidableEq κ] in
def insertRow (less : κ → κ → Bool) (new : κ × β) : List (κ × β) → List (κ × β)
  | [] => [new]
  | row :: table =>
    if less new.1 row.1 then new :: row :: table else row :: insertRow less new table

variable {key : κ} {b b₀ : β} {table : List (κ × β)}

theorem lookup_cons_eq (k : κ) (row : κ × β) :
    (row :: table).lookup k = if k = row.1 then some row.2 else table.lookup k := by
  obtain ⟨a, b⟩ := row
  by_cases h : k = a
  · subst h
    rw [lookup_cons_self, if_pos rfl]
  · rw [lookup_cons, beq_eq_false_iff_ne.2 h, if_neg h]

theorem mem_keys_of_lookup (h : table.lookup key = some b) : key ∈ table.map Prod.fst := by
  induction table with
  | nil => exact nomatch h
  | cons row table ih =>
    rw [lookup_cons_eq] at h
    rw [map_cons, mem_cons]
    split_ifs at h with heq
    · exact .inl heq
    · exact .inr (ih h)

theorem exists_lookup (h : key ∈ table.map Prod.fst) : ∃ b, table.lookup key = some b := by
  induction table with
  | nil => exact absurd h not_mem_nil
  | cons row table ih =>
    rw [lookup_cons_eq]
    split_ifs with heq
    · exact ⟨row.2, rfl⟩
    · exact ih ((mem_cons.1 h).resolve_left heq)

theorem lookup_setAt (h : table.lookup key = some b₀) (k : κ) :
    (setAt key b table).lookup k = if k = key then some b else table.lookup k := by
  induction table with
  | nil => exact nomatch h
  | cons row table ih =>
    rw [lookup_cons_eq] at h
    rw [setAt]
    by_cases hrow : row.1 = key
    · rw [if_pos hrow, lookup_cons_eq, lookup_cons_eq, hrow]
      by_cases hk : k = key
      · rw [if_pos hk, if_pos hk]
      · rw [if_neg hk, if_neg hk, if_neg hk]
    · rw [if_neg (Ne.symm hrow)] at h
      rw [if_neg hrow, lookup_cons_eq, lookup_cons_eq, ih h]
      by_cases hk : k = row.1
      · rw [if_pos hk, if_pos hk, if_neg (hk ▸ hrow)]
      · rw [if_neg hk, if_neg hk]

theorem keys_setAt : (setAt key b table).map Prod.fst = table.map Prod.fst := by
  induction table with
  | nil => rfl
  | cons row table ih =>
    rw [setAt]
    split_ifs with hrow
    · rw [map_cons, map_cons, hrow]
    · rw [map_cons, map_cons, ih]

theorem countP_setAt (p : κ × β → Bool) (h : table.lookup key = some b₀) :
    (setAt key b table).countP p + (p (key, b₀)).toNat =
      table.countP p + (p (key, b)).toNat := by
  induction table with
  | nil => exact nomatch h
  | cons row table ih =>
    rw [lookup_cons_eq] at h
    rw [setAt]
    by_cases hrow : row.1 = key
    · rw [if_pos hrow.symm, Option.some_inj] at h
      obtain rfl : row = (key, b₀) := Prod.ext hrow h
      rw [if_pos rfl, countP_cons, countP_cons]
      cases p (key, b) <;> cases p (key, b₀) <;> simp
    · rw [if_neg (Ne.symm hrow)] at h
      have hrest := ih h
      rw [if_neg hrow, countP_cons, countP_cons]
      omega

theorem lookup_eraseAt (hkeys : (table.map Prod.fst).Nodup) (k : κ) :
    (eraseAt key table).lookup k = if k = key then none else table.lookup k := by
  induction table with
  | nil => simp [eraseAt]
  | cons row table ih =>
    obtain ⟨hnot, hkeys⟩ := nodup_cons.1 hkeys
    rw [eraseAt, lookup_cons_eq]
    by_cases hrow : row.1 = key
    · rw [if_pos hrow]
      by_cases hk : k = key
      · rw [if_pos hk]
        cases hlook : table.lookup k with
        | none => rfl
        | some v => exact absurd (mem_keys_of_lookup hlook) (by rwa [hk, ← hrow])
      · rw [if_neg hk, if_neg (hrow ▸ hk)]
    · rw [if_neg hrow, lookup_cons_eq, ih hkeys]
      by_cases hk : k = row.1
      · rw [if_pos hk, if_pos hk, if_neg (hk ▸ hrow)]
      · rw [if_neg hk, if_neg hk]

theorem keys_eraseAt_sublist : ((eraseAt key table).map Prod.fst).Sublist (table.map Prod.fst) := by
  induction table with
  | nil => exact .slnil
  | cons row table ih =>
    rw [eraseAt]
    split_ifs
    · exact sublist_cons_self _ _
    · exact ih.cons_cons _

theorem countP_eraseAt (p : κ × β → Bool) (h : table.lookup key = some b₀) :
    (eraseAt key table).countP p + (p (key, b₀)).toNat = table.countP p := by
  induction table with
  | nil => exact nomatch h
  | cons row table ih =>
    rw [lookup_cons_eq] at h
    rw [eraseAt]
    by_cases hrow : row.1 = key
    · rw [if_pos hrow.symm, Option.some_inj] at h
      obtain rfl : row = (key, b₀) := Prod.ext hrow h
      rw [if_pos rfl, countP_cons]
      cases p (key, b₀) <;> simp
    · rw [if_neg (Ne.symm hrow)] at h
      have hrest := ih h
      rw [if_neg hrow, countP_cons, countP_cons]
      omega

theorem length_eraseAt (h : table.lookup key = some b₀) :
    (eraseAt key table).length + 1 = table.length := by
  have hcount := countP_eraseAt (fun _ => true) h
  rwa [countP_true] at hcount

omit [DecidableEq κ] in
theorem insertRow_perm (less : κ → κ → Bool) (new : κ × β) (table : List (κ × β)) :
    (insertRow less new table).Perm (new :: table) := by
  induction table with
  | nil => exact .refl _
  | cons row table ih =>
    rw [insertRow]
    split_ifs
    · exact .refl _
    · exact (ih.cons row).trans (.swap new row table)

theorem lookup_insertRow (less : κ → κ → Bool) (h : table.lookup key = none) (k : κ) :
    (insertRow less (key, b) table).lookup k = if k = key then some b else table.lookup k := by
  induction table with
  | nil => rw [insertRow, lookup_cons_eq]
  | cons row table ih =>
    rw [lookup_cons_eq] at h
    rw [insertRow]
    split_ifs at h with hrow
    split_ifs with hless hk hk
    · rw [lookup_cons_eq, if_pos hk]
    · rw [lookup_cons_eq, if_neg hk]
    · rw [lookup_cons_eq, ih h, if_pos hk, if_neg (hk ▸ hrow)]
    · rw [lookup_cons_eq, lookup_cons_eq, ih h, if_neg hk]

section

variable {done rest : List (κ × β)} (hnew : key ∉ done.map Prod.fst)
include hnew

theorem lookup_middle : (done ++ (key, b) :: rest).lookup key = some b := by
  induction done with
  | nil => rw [nil_append, lookup_cons_eq, if_pos rfl]
  | cons row done ih =>
    obtain ⟨hne, hnew⟩ := not_or.1 (mt mem_cons.2 hnew)
    rw [cons_append, lookup_cons_eq, if_neg hne, ih hnew]

theorem nextKey_middle : nextKey key (done ++ (key, b) :: rest) = rest.head?.map Prod.fst := by
  induction done with
  | nil => rw [nil_append, nextKey, if_pos rfl]
  | cons row done ih =>
    obtain ⟨hne, hnew⟩ := not_or.1 (mt mem_cons.2 hnew)
    rw [cons_append, nextKey, if_neg (Ne.symm hne), ih hnew]

theorem eraseAt_middle : eraseAt key (done ++ (key, b) :: rest) = done ++ rest := by
  induction done with
  | nil => rw [nil_append, eraseAt, if_pos rfl, nil_append]
  | cons row done ih =>
    obtain ⟨hne, hnew⟩ := not_or.1 (mt mem_cons.2 hnew)
    rw [cons_append, eraseAt, if_neg (Ne.symm hne), ih hnew, cons_append]

end

end Table

end Foundation
