import Mathlib.Data.List.DropRight
import Mathlib.Data.List.Forall2
import Mathlib.Order.Nat

/-!
# Lists with null entries

A list some of whose entries are `null` stands for a partial function: position
`n` is present when it holds an entry that is not null. Null entries at the end
carry nothing, and `List.rdropWhile null` drops them. Two lists that present the
same entries and end in none agree up to their null entries, and they are equal
when these all are the same `blank` entry.
-/

namespace Foundation

open List

namespace SparseList

variable {α : Type*} (null : α → Bool)

def present (l : List α) (n : ℕ) : Option α := l[n]?.filter fun a => !null a

def place (blank : α) (l : List α) (n : ℕ) (a : α) : List α :=
  (l ++ List.replicate (n + 1 - l.length) blank).set n a

def Trimmed (l : List α) : Prop := l.rdropWhile null = l

def Uniform (blank : α) (l : List α) : Prop := ∀ a ∈ l, null a = true → a = blank

def SameEntry (a b : α) : Prop := (null a = true ∧ null b = true) ∨ a = b

variable {null} {l : List α} {n : ℕ} {a blank : α} {l' : List α}

theorem present_eq_some_iff : present null l n = some a ↔ l[n]? = some a ∧ null a = false := by
  simp [present, Option.filter_eq_some_iff]

theorem present_eq_none_iff : present null l n = none ↔ ∀ a, l[n]? = some a → null a = true := by
  simp [present, Option.filter_eq_none_iff]

theorem all_null_iff : l.all null = true ↔ ∀ n, present null l n = none := by
  rw [all_eq_true]
  constructor
  · intro h n
    exact present_eq_none_iff.2 fun a ha => h a (mem_of_getElem? ha)
  · intro h a ha
    obtain ⟨n, hn⟩ := getElem?_of_mem ha
    exact present_eq_none_iff.1 (h n) a hn

theorem present_rdropWhile (l : List α) (n : ℕ) :
    present null (l.rdropWhile null) n = present null l n := by
  induction l using List.reverseRecOn with
  | nil => rfl
  | append_singleton l a ih =>
    by_cases ha : null a = true
    · rw [rdropWhile_concat_pos _ _ _ ha, ih]
      rcases lt_trichotomy n l.length with hn | rfl | hn
      · rw [present, present, getElem?_append_left hn]
      · simp [present, Option.filter, ha]
      · rw [present, present, getElem?_eq_none hn.le,
          getElem?_eq_none (by rw [length_append]; exact hn)]
    · rw [rdropWhile_concat_neg _ _ _ ha]

theorem trimmed_rdropWhile (l : List α) : Trimmed null (l.rdropWhile null) :=
  rdropWhile_idempotent null l

theorem Uniform.rdropWhile (h : Uniform null blank l) : Uniform null blank (l.rdropWhile null) :=
  fun a ha => h a ((List.rdropWhile_prefix null l).subset ha)

theorem present_set (l : List α) (n : ℕ) (a : α) (m : ℕ) :
    present null (l.set n a) m =
      if m = n then (if n < l.length then present null [a] 0 else none)
      else present null l m := by
  unfold present
  rw [getElem?_set]
  by_cases hmn : m = n
  · subst hmn
    by_cases hlt : m < l.length <;> simp [hlt]
  · rw [if_neg (Ne.symm hmn), if_neg hmn]

theorem present_set_null (ha : null a = true) (m : ℕ) :
    present null (l.set n a) m = if m = n then none else present null l m := by
  rw [present_set]
  simp [present, Option.filter, ha]

theorem present_append_replicate (hblank : null blank = true) (l : List α) (k n : ℕ) :
    present null (l ++ List.replicate k blank) n = present null l n := by
  by_cases hn : n < l.length
  · rw [present, present, getElem?_append_left hn]
  · rw [not_lt] at hn
    have hl : present null l n = none := by
      rw [present, getElem?_eq_none hn]
      rfl
    rw [hl, present_eq_none_iff, getElem?_append_right hn]
    intro a ha
    rw [eq_of_mem_replicate (mem_of_getElem? ha)]
    exact hblank

theorem present_place (hblank : null blank = true) (l : List α) (n : ℕ)
    (ha : null a = false) (m : ℕ) :
    present null (place blank l n a) m = if m = n then some a else present null l m := by
  have hlen : n < (l ++ List.replicate (n + 1 - l.length) blank).length := by
    rw [length_append, length_replicate]
    omega
  rw [place, present_set, if_pos hlen, present_append_replicate hblank]
  simp [present, Option.filter, ha]

theorem Uniform.set (h : Uniform null blank l)
    (ha : null a = true → a = blank) : Uniform null blank (l.set n a) := by
  intro b hb hnull
  rcases mem_or_eq_of_mem_set hb with hb | rfl
  · exact h b hb hnull
  · exact ha hnull

theorem Uniform.place (h : Uniform null blank l)
    (ha : null a = false) : Uniform null blank (place blank l n a) := by
  have hgrown : Uniform null blank (l ++ List.replicate (n + 1 - l.length) blank) := by
    intro b hb hnull
    rcases mem_append.1 hb with hb | hb
    · exact h b hb hnull
    · exact eq_of_mem_replicate hb
  refine hgrown.set fun hnull => ?_
  rw [ha] at hnull
  cases hnull

theorem length_le_of_present (hl : Trimmed null l)
    (h : ∀ n, present null l n = present null l' n) : l.length ≤ l'.length := by
  rcases eq_nil_or_concat' l with rfl | ⟨init, a, rfl⟩
  · exact Nat.zero_le _
  · have ha : null a = false := by
      have hlast := rdropWhile_eq_self_iff.1 hl (by simp)
      simpa using hlast
    have hpresent : present null (init ++ [a]) init.length = some a :=
      present_eq_some_iff.2 ⟨by simp, ha⟩
    rw [h, present_eq_some_iff] at hpresent
    have hlt := (List.getElem?_eq_some_iff.1 hpresent.1).1
    rw [length_append]
    exact hlt

theorem forall₂_of_present (hl : Trimmed null l) (hl' : Trimmed null l')
    (h : ∀ n, present null l n = present null l' n) :
    List.Forall₂ (SameEntry null) l l' := by
  have hlen : l.length = l'.length :=
    le_antisymm (length_le_of_present hl h) (length_le_of_present hl' fun n => (h n).symm)
  refine forall₂_iff_get.2 ⟨hlen, fun n h₁ h₂ => ?_⟩
  have hn := h n
  cases hnull : null (l.get ⟨n, h₁⟩) with
  | false =>
    have hsome : present null l n = some (l.get ⟨n, h₁⟩) :=
      present_eq_some_iff.2 ⟨getElem?_eq_getElem h₁, hnull⟩
    rw [hn, present_eq_some_iff, getElem?_eq_getElem h₂] at hsome
    exact Or.inr (Option.some.inj hsome.1).symm
  | true =>
    have hnone : present null l n = none := by
      refine present_eq_none_iff.2 fun a ha => ?_
      rw [getElem?_eq_getElem h₁] at ha
      rw [← Option.some.inj ha]
      exact hnull
    rw [hn, present_eq_none_iff] at hnone
    exact Or.inl ⟨hnull, hnone _ (getElem?_eq_getElem h₂)⟩

theorem eq_of_present (hl : Trimmed null l) (hl' : Trimmed null l')
    (hu : Uniform null blank l) (hu' : Uniform null blank l')
    (h : ∀ n, present null l n = present null l' n) : l = l' := by
  have hrel := forall₂_of_present hl hl' h
  clear hl hl' h
  induction hrel with
  | nil => rfl
  | @cons a b l l' hab _ ih =>
    have htail := ih (fun c hc => hu c (mem_cons_of_mem a hc))
      (fun c hc => hu' c (mem_cons_of_mem b hc))
    rcases hab with ⟨ha, hb⟩ | rfl
    · rw [hu a mem_cons_self ha, hu' b mem_cons_self hb, htail]
    · rw [htail]

end SparseList

end Foundation
