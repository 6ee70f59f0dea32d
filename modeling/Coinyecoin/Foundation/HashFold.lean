import Mathlib.Data.List.Induction

/-!
# Folding through a hash function

A digest is folded through a list of steps, each time hashing the pair of the two.
If the hash function has no collision among the strings that were hashed on the
way, then the result determines where the fold began and its steps.
-/

namespace Foundation

open List

namespace HashFold

variable {B H : Type} (hash : B → H) (pair : H → H → B)

def fold (h : H) (steps : List H) : H := steps.foldl (fun h step => hash (pair h step)) h

def inputs (b : B) : List H → List B
  | [] => [b]
  | step :: steps => b :: inputs (pair (hash b) step) steps

variable {hash pair} (h step : H) (steps : List H) (b : B)

theorem fold_cons :
    fold hash pair h (step :: steps) = fold hash pair (hash (pair h step)) steps := rfl

theorem fold_concat :
    fold hash pair h (steps ++ [step]) = hash (pair (fold hash pair h steps) step) := by
  rw [fold, foldl_append]
  rfl

theorem inputs_concat (steps : List H) (step : H) :
    inputs hash pair b (steps ++ [step]) =
      inputs hash pair b steps ++ [pair (fold hash pair (hash b) steps) step] := by
  induction steps generalizing b with
  | nil => rfl
  | cons first steps ih =>
    rw [cons_append, inputs, ih, inputs, fold_cons, cons_append]

theorem mem_inputs (steps : List H) : b ∈ inputs hash pair b steps := by
  cases steps <;> exact mem_cons_self

/-- Without collisions the result determines the first string, if that is none of
the pairs, and the steps. -/
theorem fold_injective (hpair : Function.Injective2 pair) {S : List B}
    (hinj : ∀ x ∈ S, ∀ y ∈ S, hash x = hash y → x = y) {b b' : B} {steps steps' : List H}
    (hS : ∀ x ∈ inputs hash pair b steps, x ∈ S) (hS' : ∀ x ∈ inputs hash pair b' steps', x ∈ S)
    (hb : ∀ h step, b ≠ pair h step) (hb' : ∀ h step, b' ≠ pair h step)
    (heq : fold hash pair (hash b) steps = fold hash pair (hash b') steps') :
    b = b' ∧ steps = steps' := by
  -- from the last step backwards: equal digests come from equal strings
  induction steps using List.reverseRecOn generalizing steps' with
  | nil =>
    cases steps' using List.reverseRecOn with
    | nil => exact ⟨hinj b (hS b (mem_inputs b [])) b' (hS' b' (mem_inputs b' [])) heq, rfl⟩
    | append_singleton steps' step' =>
      rw [fold_concat] at heq
      rw [inputs_concat] at hS'
      have hlast := hinj b (hS b (mem_inputs b [])) _
        (hS' _ (mem_append_right _ (mem_singleton_self _))) heq
      exact absurd hlast (hb _ _)
  | append_singleton steps step ih =>
    rw [fold_concat] at heq
    rw [inputs_concat] at hS
    have hmem := hS _ (mem_append_right _ (mem_singleton_self _))
    cases steps' using List.reverseRecOn with
    | nil =>
      have hlast := hinj b' (hS' b' (mem_inputs b' [])) _ hmem heq.symm
      exact absurd hlast (hb' _ _)
    | append_singleton steps' step' =>
      rw [fold_concat] at heq
      rw [inputs_concat] at hS'
      have hlast := hinj _ hmem _
        (hS' _ (mem_append_right _ (mem_singleton_self _))) heq
      obtain ⟨hfold, hstep⟩ := hpair hlast
      obtain ⟨hfirst, hsteps⟩ := ih (fun x hx => hS x (mem_append_left _ hx))
        (fun x hx => hS' x (mem_append_left _ hx)) hfold
      exact ⟨hfirst, by rw [hsteps, hstep]⟩

end HashFold

end Foundation
