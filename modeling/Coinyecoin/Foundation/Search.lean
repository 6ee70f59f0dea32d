import Mathlib.Data.List.Infix

/-!
# Searching a list for another

`search needle hay` is the first place where `needle` lies in `hay`, and the
length of `hay` if there is none, as `std::search` has it.
-/

namespace Foundation

section

variable {α : Type} [DecidableEq α]

def search (needle : List α) : List α → ℕ
  | [] => 0
  | a :: hay => if needle <+: a :: hay then 0 else search needle hay + 1

variable {needle hay : List α}

theorem isPrefix_drop_search (h : search needle hay ≠ hay.length) :
    needle <+: hay.drop (search needle hay) := by
  induction hay with
  | nil => exact absurd rfl h
  | cons a hay ih =>
    rw [search] at h ⊢
    split_ifs at h ⊢ with hfirst
    · exact hfirst
    · exact ih fun heq => h (congrArg (· + 1) heq)

theorem search_ne_length (hneedle : needle ≠ []) (h : needle <:+: hay) :
    search needle hay ≠ hay.length := by
  induction hay with
  | nil => exact absurd (List.eq_nil_of_infix_nil h) hneedle
  | cons a hay ih =>
    rw [search, List.length_cons]
    split_ifs with hfirst
    · exact (Nat.succ_ne_zero _).symm
    · have hrest : needle <:+: hay := (List.infix_cons_iff.1 h).resolve_left hfirst
      exact fun heq => ih hrest (Nat.succ_injective heq)

theorem search_add_length_le (h : search needle hay ≠ hay.length) :
    search needle hay + needle.length ≤ hay.length := by
  have hle : search needle hay ≤ hay.length := by
    clear h
    induction hay with
    | nil => exact le_rfl
    | cons a hay ih =>
      rw [search, List.length_cons]
      split_ifs
      · exact Nat.zero_le _
      · exact Nat.succ_le_succ ih
  have hlen := (isPrefix_drop_search h).length_le
  rw [List.length_drop] at hlen
  omega

theorem search_eq {n : ℕ} (h : needle <+: hay.drop n) (hfirst : ∀ m < n, ¬needle <+: hay.drop m) :
    search needle hay = n := by
  induction hay generalizing n with
  | nil =>
    by_contra hne
    exact hfirst 0 (Nat.pos_of_ne_zero (Ne.symm hne)) (by simpa using h)
  | cons a hay ih =>
    rw [search]
    cases n with
    | zero => exact if_pos h
    | succ n =>
      have hnot : ¬needle <+: a :: hay := hfirst 0 (Nat.succ_pos n)
      rw [if_neg hnot]
      exact congrArg (· + 1) (ih h fun m hm => hfirst (m + 1) (Nat.succ_lt_succ hm))

theorem search_eq_length (h : ∀ m, ¬needle <+: hay.drop m) : search needle hay = hay.length := by
  by_contra hne
  exact h _ (isPrefix_drop_search hne)

end

end Foundation
