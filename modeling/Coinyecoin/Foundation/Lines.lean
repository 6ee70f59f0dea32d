import Mathlib.Data.List.Basic

/-!
# Lines of a stream

A stream that is cut at a separator has its complete lines, `bodies`, and what
comes after the last separator, `rest`. Reading more of a stream only goes on
with the rest (`bodies_rest_append`). Facts about all streams are proved line by
line with `lines_induction`.
-/

namespace Foundation

open List

namespace Lines

variable {α : Type} [DecidableEq α] {sep : α} {l : List α}

def bodies (sep : α) (l : List α) : List (List α) := (l.splitOn sep).dropLast

def rest (sep : α) (l : List α) : List α := (l.splitOn sep).getLastD []

theorem bodies_rest_of_splitOn {ls : List (List α)} {r : List α}
    (h : l.splitOn sep = ls ++ [r]) : bodies sep l = ls ∧ rest sep l = r := by
  rw [bodies, rest, h, dropLast_concat, getLastD_concat]
  exact ⟨rfl, rfl⟩

theorem splitOn_eq {sep : α} (l : List α) : l.splitOn sep = bodies sep l ++ [rest sep l] := by
  obtain hnil | ⟨ls, r, h⟩ := (l.splitOn sep).eq_nil_or_concat
  · exact absurd hnil (splitOnP_ne_nil _ l)
  · rw [concat_eq_append] at h
    obtain ⟨hls, hr⟩ := bodies_rest_of_splitOn h
    rw [h, hls, hr]

theorem bodies_rest_of_not_mem (h : sep ∉ l) : bodies sep l = [] ∧ rest sep l = l := by
  have hne : ∀ a ∈ l, (a == sep) = false := fun a ha =>
    beq_eq_false_iff_ne.2 (ne_of_mem_of_not_mem ha h)
  exact bodies_rest_of_splitOn (splitOnP_eq_singleton hne)

theorem bodies_rest_line {body : List α} (h : sep ∉ body) (l : List α) :
    bodies sep (body ++ sep :: l) = body :: bodies sep l ∧
      rest sep (body ++ sep :: l) = rest sep l := by
  have hne : ∀ a ∈ body, (a == sep) = false := fun a ha =>
    beq_eq_false_iff_ne.2 (ne_of_mem_of_not_mem ha h)
  have hsplit : (body ++ sep :: l).splitOn sep = body :: l.splitOn sep :=
    splitOnP_append_cons_of_forall_mem hne sep (beq_self_eq_true sep) l
  apply bodies_rest_of_splitOn
  rw [hsplit, splitOn_eq l, cons_append]

@[elab_as_elim]
theorem lines_induction {P : List α → Prop} (sep : α)
    (line : ∀ body more, sep ∉ body → P more → P (body ++ sep :: more))
    (unfinished : ∀ l, sep ∉ l → P l) (l : List α) : P l := by
  induction hn : l.length using Nat.strongRecOn generalizing l with
  | ind n ih =>
    by_cases hmem : sep ∈ l
    · obtain ⟨body, more, rfl, hbody⟩ := eq_append_cons_of_mem hmem
      refine line body more hbody (ih more.length ?_ more rfl)
      rw [← hn, length_append, length_cons]
      omega
    · exact unfinished l hmem

theorem not_mem_rest {sep : α} {l : List α} : sep ∉ rest sep l := by
  induction l using lines_induction sep with
  | line body more hbody ih => rwa [(bodies_rest_line hbody more).2]
  | unfinished l hl => rwa [(bodies_rest_of_not_mem hl).2]

theorem bodies_rest_append (sep : α) (l m : List α) :
    bodies sep (l ++ m) = bodies sep l ++ bodies sep (rest sep l ++ m) ∧
      rest sep (l ++ m) = rest sep (rest sep l ++ m) := by
  induction l using lines_induction sep with
  | line body more hbody ih =>
    obtain ⟨hbodies, hrest⟩ := bodies_rest_line hbody more
    obtain ⟨hbodies', hrest'⟩ := bodies_rest_line hbody (more ++ m)
    rw [append_assoc, cons_append, hbodies', hrest', hbodies, hrest, ih.1, ih.2]
    exact ⟨rfl, rfl⟩
  | unfinished l hl =>
    rw [(bodies_rest_of_not_mem hl).1, (bodies_rest_of_not_mem hl).2]
    exact ⟨rfl, rfl⟩

theorem length_rest_le {n : ℕ} {l m : List α} (hbodies : ∀ body ∈ bodies sep (l ++ m),
    body.length ≤ n) (hrest : (rest sep (l ++ m)).length ≤ n) : (rest sep l).length ≤ n := by
  obtain ⟨hbodies', hrest'⟩ := bodies_rest_append sep l m
  by_cases hmem : sep ∈ m
  · obtain ⟨body, more, rfl, hbody⟩ := eq_append_cons_of_mem hmem
    have hfirst : sep ∉ rest sep l ++ body := by
      rw [mem_append, not_or]
      exact ⟨not_mem_rest, hbody⟩
    have hlen := hbodies (rest sep l ++ body) (by
      rw [hbodies', ← append_assoc (rest sep l), (bodies_rest_line hfirst more).1]
      exact mem_append_right _ mem_cons_self)
    rw [length_append] at hlen
    omega
  · have hall : sep ∉ rest sep l ++ m := by
      rw [mem_append, not_or]
      exact ⟨not_mem_rest, hmem⟩
    rw [hrest', (bodies_rest_of_not_mem hall).2, length_append] at hrest
    omega

end Lines

end Foundation
