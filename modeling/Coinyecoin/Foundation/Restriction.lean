import Coinyecoin.Foundation.Computation

/-!
# Computations that restrict others

`x` subsumes `y` if it succeeds wherever `y` does, with the same result; `y` may
fail more often. The relation goes through every way of composing computations,
so that a program with more checks is compared with the same program with fewer
by looking at the checks alone. It is stated for computations that may fail, and
for those that also keep a state, which then is the same too.
-/

namespace Foundation

variable {p : Prop} {ε' : Type}

section

variable {ε α β : Type}

/-- `x` succeeds wherever `y` does, with the same value. -/
def Subsumes (x y : Except ε α) : Prop := ∀ a, y = .ok a → x = .ok a

namespace Subsumes

theorem refl (x : Except ε α) : Subsumes x x := fun _ h => h

variable {x y : Except ε α}

theorem bind {f g : α → Except ε β} (hx : Subsumes x y)
    (hf : ∀ a, Subsumes (f a) (g a)) : Subsumes (x >>= f) (y >>= g) := by
  intro b hb
  obtain ⟨a, ha, hb⟩ := bind_eq_ok.1 hb
  rw [hx a ha, ok_bind]
  exact hf a b hb

theorem skip {check : Except ε Unit} (h : Subsumes x y) : Subsumes x (check >>= fun _ => y) := by
  intro a ha
  obtain ⟨-, -, ha⟩ := bind_eq_ok.1 ha
  exact h a ha

theorem ite [Decidable p] {x y x' y' : Except ε α} (hpos : Subsumes x x')
    (hneg : Subsumes y y') : Subsumes (if p then x else y) (if p then x' else y') := by
  split_ifs
  · exact hpos
  · exact hneg

end Subsumes

end

section

variable {ε σ α β : Type}

/-- Computations that may fail and keep a state either way. -/
abbrev Stateful (ε σ α : Type) := ExceptT ε (StateM σ) α

/-- From every state `x` succeeds if `y` does, with the same value and state. -/
def SubsumesState (x y : Stateful ε σ α) : Prop :=
  ∀ s a s', y.run.run s = (.ok a, s') → x.run.run s = (.ok a, s')

theorem stateful_run_bind (x : Stateful ε σ α) (f : α → Stateful ε σ β) (s : σ) :
    (x >>= f).run.run s =
      match x.run.run s with
      | (.ok a, s') => (f a).run.run s'
      | (.error e, s') => (.error e, s') := by
  simp only [ExceptT.run_bind, StateT.run_bind]
  rcases x.run.run s with ⟨e | a, s'⟩
  · rfl
  · rfl

theorem stateful_run_lift (x : Except ε α) (s : σ) :
    (liftM x : Stateful ε σ α).run.run s = (x, s) := rfl

theorem stateful_run_adapt (f : ε → ε') (x : Stateful ε σ α) (s : σ) :
    (ExceptT.adapt f x : Stateful ε' σ α).run.run s =
      ((x.run.run s).1.mapError f, (x.run.run s).2) := rfl

namespace SubsumesState

theorem refl (x : Stateful ε σ α) : SubsumesState x x := fun _ _ _ h => h

theorem lift {x y : Except ε α} (h : Subsumes x y) :
    SubsumesState (liftM x : Stateful ε σ α) (liftM y) := by
  intro s a s' hrun
  rw [stateful_run_lift, Prod.mk.injEq] at hrun ⊢
  exact ⟨h a hrun.1, hrun.2⟩

variable {x y : Stateful ε σ α}

theorem bind {f g : α → Stateful ε σ β} (hx : SubsumesState x y)
    (hf : ∀ a, SubsumesState (f a) (g a)) : SubsumesState (x >>= f) (y >>= g) := by
  intro s b s' hrun
  rw [stateful_run_bind] at hrun ⊢
  cases hy : y.run.run s with
  | mk result s₁ =>
    rw [hy] at hrun
    cases result with
    | error e => cases hrun
    | ok a =>
      rw [hx s a s₁ hy]
      exact hf a s₁ b s' hrun

theorem adapt (f : ε → ε') (h : SubsumesState x y) :
    SubsumesState (ExceptT.adapt f x : Stateful ε' σ α) (ExceptT.adapt f y) := by
  intro s a s' hrun
  rw [stateful_run_adapt] at hrun ⊢
  cases hy : y.run.run s with
  | mk result s₁ =>
    rw [hy] at hrun
    cases result with
    | error e => cases hrun
    | ok b =>
      rw [h s b s₁ hy]
      exact hrun

theorem ite [Decidable p] {x y x' y' : Stateful ε σ α} (hpos : SubsumesState x x')
    (hneg : SubsumesState y y') : SubsumesState (if p then x else y) (if p then x' else y') := by
  split_ifs
  · exact hpos
  · exact hneg

end SubsumesState

def Succeeds (x : Stateful ε σ α) (s : σ) : Prop := ∃ a s', x.run.run s = (.ok a, s')

variable {s : σ} {x y : Stateful ε σ α}

theorem succeeds_lift {x : Except ε α} :
    Succeeds (liftM x : Stateful ε σ α) s ↔ ∃ a, x = .ok a := by
  constructor
  · rintro ⟨a, s', hrun⟩
    exact ⟨a, congrArg Prod.fst hrun⟩
  · rintro ⟨a, rfl⟩
    exact ⟨a, s, rfl⟩

theorem succeeds_pure (a : α) (s : σ) : Succeeds (pure a : Stateful ε σ α) s := ⟨a, s, rfl⟩

theorem succeeds_bind {f : α → Stateful ε σ β} :
    Succeeds (x >>= f) s ↔ ∃ a s', x.run.run s = (.ok a, s') ∧ Succeeds (f a) s' := by
  constructor
  · rintro ⟨b, s', hrun⟩
    rw [stateful_run_bind] at hrun
    cases hx : x.run.run s with
    | mk result s₁ =>
      rw [hx] at hrun
      cases result with
      | error e => cases hrun
      | ok a => exact ⟨a, s₁, rfl, b, s', hrun⟩
  · rintro ⟨a, s', hx, b, s₂, hf⟩
    refine ⟨b, s₂, ?_⟩
    rw [stateful_run_bind, hx]
    exact hf

theorem SubsumesState.succeeds (h : SubsumesState x y) (hy : Succeeds y s) : Succeeds x s := by
  obtain ⟨a, s', hrun⟩ := hy
  exact ⟨a, s', h s a s' hrun⟩

theorem SubsumesState.succeeds_bind {f g : α → Stateful ε σ β}
    (hx : SubsumesState x y) (hf : ∀ a s', Succeeds (g a) s' → Succeeds (f a) s')
    (hy : Succeeds (y >>= g) s) : Succeeds (x >>= f) s := by
  obtain ⟨a, s', hrun, hg⟩ := Foundation.succeeds_bind.1 hy
  exact Foundation.succeeds_bind.2 ⟨a, s', hx s a s' hrun, hf a s' hg⟩

end

end Foundation
