import Mathlib.Data.List.Induction
import Mathlib.Data.List.Nodup

/-!
# Ledgers of outputs

A ledger says which outputs of which transactions can still be spent. An entry
spends some outputs, which must be there, and sets all outputs of one
transaction. `Run U es U'` is a sequence of entries.

An output can only be spent twice in a run if it is created again in between,
by an entry with the same identifier as the one that created it first. Where
entries of one identifier spend the same outputs, and the outputs of no entry
are there at the start, that would need an even earlier pair of such entries:
identifiers are distinct, and no output is spent twice.
-/

namespace Foundation

open List

abbrev Ledger (T A : Type*) := T → ℕ → Option A

namespace Ledger

structure Entry (T A : Type*) where
  id : T
  spends : List (T × ℕ)
  outputs : ℕ → Option A

variable {T A : Type*} [DecidableEq T] {U U' U₁ U₂ : Ledger T A} {e : Entry T A}
  {es es₁ es₂ : List (Entry T A)} {t : T} {n : ℕ}

def without (U : Ledger T A) (outs : List (T × ℕ)) : Ledger T A :=
  fun t n => if (t, n) ∈ outs then none else U t n

def after (U : Ledger T A) (e : Entry T A) : Ledger T A :=
  Function.update (U.without e.spends) e.id e.outputs

/-- A sequence of entries, each of which spends outputs that are there. -/
inductive Run : Ledger T A → List (Entry T A) → Ledger T A → Prop
  | nil (U : Ledger T A) : Run U [] U
  | cons {U U' : Ledger T A} {e : Entry T A} {es : List (Entry T A)}
      (hspends : ∀ o ∈ e.spends, U o.1 o.2 ≠ none) (hrest : Run (U.after e) es U') :
      Run U (e :: es) U'

theorem without_of_mem {outs : List (T × ℕ)} (h : (t, n) ∈ outs) : U.without outs t n = none :=
  if_pos h

theorem without_of_notMem {outs : List (T × ℕ)} (h : (t, n) ∉ outs) : U.without outs t n = U t n :=
  if_neg h

theorem without_cons (o : T × ℕ) (outs : List (T × ℕ)) :
    U.without (o :: outs) = (U.without [o]).without outs := by
  funext t n
  by_cases hmem : (t, n) ∈ outs
  · rw [without_of_mem hmem, without_of_mem (mem_cons_of_mem o hmem)]
  · rw [without_of_notMem hmem]
    by_cases ho : (t, n) = o
    · rw [ho.symm, without_of_mem mem_cons_self, without_of_mem mem_cons_self]
    · rw [without_of_notMem (by simp [ho, hmem]), without_of_notMem (by simpa using ho)]

theorem after_of_ne (ht : t ≠ e.id) : U.after e t n = U.without e.spends t n := by
  rw [after, Function.update_of_ne ht]

theorem without_ne_none {outs : List (T × ℕ)} (h : U.without outs t n ≠ none) : U t n ≠ none := by
  unfold without at h
  split_ifs at h
  · exact absurd rfl h
  · exact h

theorem Run.split (h : Run U (es₁ ++ es₂) U') : ∃ U₁, Run U es₁ U₁ ∧ Run U₁ es₂ U' := by
  induction es₁ generalizing U with
  | nil => exact ⟨U, .nil U, h⟩
  | cons e es₁ ih =>
    cases h with
    | cons hspends hrest =>
      obtain ⟨U₁, hfirst, hlast⟩ := ih hrest
      exact ⟨U₁, .cons hspends hfirst, hlast⟩

theorem Run.origin (h : Run U es U') (hout : U' t n ≠ none) :
    U t n ≠ none ∨ ∃ e ∈ es, e.id = t := by
  induction h with
  | nil U => exact Or.inl hout
  | @cons U U' e es _ _ ih =>
    rcases ih hout with hafter | ⟨e', he', hid⟩
    · by_cases ht : t = e.id
      · exact Or.inr ⟨e, mem_cons_self, ht.symm⟩
      · rw [after_of_ne ht] at hafter
        exact Or.inl (without_ne_none hafter)
    · exact Or.inr ⟨e', mem_cons_of_mem e he', hid⟩

theorem Run.spent_for_good (h₁ : Run U es₁ U₁) (hthere : U₁ t n ≠ none)
    (hspent : (t, n) ∈ e.spends) (h₂ : Run (U₁.after e) es₂ U₂)
    (hnew : ∀ e' ∈ es₁ ++ e :: es₂, ∀ m, U e'.id m = none)
    (hnodup : ((es₁ ++ e :: es₂).map Entry.id).Nodup) : U₂ t n = none := by
  by_contra hagain
  -- the entry that brings the output back after it was spent
  have hback : ∃ e' ∈ e :: es₂, e'.id = t := by
    rcases h₂.origin hagain with hafter | ⟨e', he', hid⟩
    · by_cases ht : t = e.id
      · exact ⟨e, mem_cons_self, ht.symm⟩
      · rw [after_of_ne ht, without_of_mem hspent] at hafter
        exact absurd rfl hafter
    · exact ⟨e', mem_cons_of_mem e he', hid⟩
  obtain ⟨e', he', hid'⟩ := hback
  rcases h₁.origin hthere with hstart | ⟨e'', he'', hid''⟩
  · have hnone := hnew e' (mem_append_right es₁ he') n
    rw [hid'] at hnone
    exact hstart hnone
  · rw [map_append, nodup_append] at hnodup
    exact hnodup.2.2 _ (mem_map_of_mem he'') _ (mem_map_of_mem he')
      (hid''.trans hid'.symm)

/-- What a run must satisfy for no output to be spent twice: no entry's outputs
are there at the start, entries of one identifier spend the same, and every entry
but the first spends something. -/
structure Regular (U : Ledger T A) (es : List (Entry T A)) : Prop where
  new : ∀ e ∈ es, ∀ m, U e.id m = none
  same : ∀ e ∈ es, ∀ e' ∈ es, e.id = e'.id → e.spends = e'.spends
  spends : ∀ e ∈ es.tail, e.spends ≠ []

omit [DecidableEq T] in
theorem Regular.of_append (h : Regular U (es₁ ++ es₂)) : Regular U es₁ where
  new e he := h.new e (List.mem_append_left es₂ he)
  same e he e' he' := h.same e (List.mem_append_left es₂ he) e' (List.mem_append_left es₂ he')
  spends e he := by
    cases es₁ with
    | nil => cases he
    | cons e₀ es₁ => exact h.spends e (mem_append_left es₂ he)

theorem Run.nodup_ids (hrun : Run U es U') (h : Regular U es) : (es.map Entry.id).Nodup := by
  -- induction from the end: the last entry with a repeated identifier
  induction es using List.reverseRecOn generalizing U' with
  | nil => exact nodup_nil
  | append_singleton pre e ih =>
    obtain ⟨U₁, hpre, hlast⟩ := hrun.split
    have hnodup := ih hpre h.of_append
    rw [map_append, nodup_append]
    refine ⟨hnodup, nodup_singleton _, ?_⟩
    intro t ht t' ht' heq
    obtain ⟨e', he', rfl⟩ := mem_map.1 ht
    rw [map_singleton, mem_singleton] at ht'
    subst ht'
    have hsame := h.same e' (mem_append_left _ he') e (mem_append_right _ (by simp)) heq
    have hne : e.spends ≠ [] := by
      refine h.spends e ?_
      rw [tail_append_of_ne_nil (ne_nil_of_mem he')]
      exact mem_append_right _ (mem_singleton_self e)
    obtain ⟨o, ho⟩ := exists_mem_of_ne_nil _ hne
    obtain ⟨es₁, es₂, rfl⟩ := append_of_mem he'
    obtain ⟨U₀, hrun₁, hrun₂⟩ := hpre.split
    cases hrun₂ with
    | cons hspends hrun₂ =>
      rw [← hsame] at ho
      have hgone := hrun₁.spent_for_good (hspends o ho) ho hrun₂ h.of_append.new hnodup
      rw [hsame] at ho
      cases hlast with
      | cons hspends' _ => exact hspends' o ho hgone

theorem Run.nodup_spends (hrun : Run U es U') (h : Regular U es)
    (hspends : ∀ e ∈ es, e.spends.Nodup) : (es.flatMap Entry.spends).Nodup := by
  refine nodup_flatMap.2 ⟨hspends, ?_⟩
  have hnodup := hrun.nodup_ids h
  clear hspends
  induction es using List.reverseRecOn generalizing U' with
  | nil => exact List.Pairwise.nil
  | append_singleton pre e ih =>
    obtain ⟨U₁, hpre, hlast⟩ := hrun.split
    have hnodup₁ : (pre.map Entry.id).Nodup := hpre.nodup_ids h.of_append
    refine pairwise_append.2 ⟨ih hpre h.of_append hnodup₁, pairwise_singleton _ _, ?_⟩
    intro e₁ he₁ e₂ he₂ o ho₁ ho₂
    rw [mem_singleton] at he₂
    subst he₂
    obtain ⟨es₁, es₂, rfl⟩ := append_of_mem he₁
    obtain ⟨U₀, hrun₁, hrun₂⟩ := hpre.split
    cases hrun₂ with
    | cons hthere hrun₂ =>
      have hgone := hrun₁.spent_for_good (hthere o ho₁) ho₁ hrun₂ h.of_append.new hnodup₁
      cases hlast with
      | cons hthere' _ => exact hthere' o ho₂ hgone

end Ledger

end Foundation
