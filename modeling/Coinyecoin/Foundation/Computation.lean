import Mathlib.Tactic.Common

/-!
# Computations that may fail

Equations for `Except` as a monad: a bind after a value runs on, a bind after
an error stops, and a bind that ends in a value came from one. They let a
proof peel a `do` block apart without unfolding the monad.
-/

namespace Foundation

section

variable {ε α β : Type}

@[simp] theorem ok_bind (a : α) (f : α → Except ε β) : (Except.ok a >>= f) = f a := rfl

@[simp] theorem error_bind (e : ε) (f : α → Except ε β) :
    ((Except.error e : Except ε α) >>= f) = Except.error e := rfl

variable {a : α} {f : α → Except ε β} {x : Except ε α} {b : β} {step : β → α → Except ε β}
  {l : List α} {Stop : ε → Prop} {P : α → Prop}

theorem bind_eq_ok : (x >>= f) = .ok b ↔ ∃ a, x = .ok a ∧ f a = .ok b := by
  cases x with
  | error e => simp
  | ok a => simp

theorem eq_ok_of_toOption (h : x.toOption = some a) : x = .ok a := by
  cases x with
  | error e => exact nomatch h
  | ok b => exact congrArg Except.ok (Option.some_inj.1 h)

theorem foldlM_keeps {P : β → Prop}
    (hstep : ∀ b a b', a ∈ l → P b → step b a = .ok b' → P b') {b b' : β} (hb : P b)
    (hrun : l.foldlM step b = .ok b') : P b' := by
  induction l generalizing b with
  | nil =>
    cases hrun
    exact hb
  | cons a l ih =>
    rw [List.foldlM_cons, bind_eq_ok] at hrun
    obtain ⟨b₁, hfirst, hrest⟩ := hrun
    exact ih (fun c x c' hx => hstep c x c' (List.mem_cons_of_mem a hx))
      (hstep b a b₁ List.mem_cons_self hb hfirst) hrest

theorem forM_eq_ok {check : α → Except ε Unit} {u : Unit} :
    l.forM check = .ok u ↔ ∀ a ∈ l, check a = .ok () := by
  induction l with
  | nil => exact iff_of_true rfl fun _ hmem => nomatch hmem
  | cons a l ih =>
    change (check a >>= fun _ => l.forM check) = .ok u ↔ _
    rw [bind_eq_ok, List.forall_mem_cons, ← ih]
    exact ⟨fun ⟨_, h⟩ => h, fun h => ⟨(), h⟩⟩

/-- A computation ends well: in a value with `P`, or in an error that `Stop` allows. -/
def Ends (Stop : ε → Prop) (P : α → Prop) : Except ε α → Prop
  | .ok a => P a
  | .error e => Stop e

theorem Ends.bind {Q : β → Prop} (hx : Ends Stop P x) (hf : ∀ a, P a → Ends Stop Q (f a)) :
    Ends Stop Q (x >>= f) := by
  cases x with
  | error e => exact hx
  | ok a => exact hf a hx

theorem Ends.foldlM {P : β → Prop}
    (hstep : ∀ b a, P b → Ends Stop P (step b a)) (hb : P b) (l : List α) :
    Ends Stop P (l.foldlM step b) := by
  induction l generalizing b with
  | nil => exact hb
  | cons a l ih =>
    rw [List.foldlM_cons]
    exact (hstep b a hb).bind fun b' hb' => ih hb'

theorem Ends.anyM {p : α → Except ε Bool} (hp : ∀ a, Ends Stop (fun _ => True) (p a))
    (l : List α) : Ends Stop (fun _ => True) (l.anyM p) := by
  induction l with
  | nil => trivial
  | cons a l ih =>
    refine (hp a).bind fun found _ => ?_
    cases found with
    | true => trivial
    | false => exact ih

theorem Ends.imp {P Q : α → Prop} (hx : Ends Stop P x) (h : ∀ a, P a → Q a) : Ends Stop Q x := by
  cases x with
  | error e => exact hx
  | ok a => exact h a hx

theorem Ends.of_eq_ok (hx : Ends Stop P x) (ha : x = .ok a) : P a := by
  subst ha
  exact hx

theorem Ends.returns (hx : Ends (fun _ => False) P x) : ∃ a, x = .ok a ∧ P a := by
  cases x with
  | error e => exact hx.elim
  | ok a => exact ⟨a, rfl, hx⟩

end

end Foundation
